import KernelFront.Proofs.Cache.Calm

/-! # A key is claimed once

As long as nobody discards the slots of a name, and no pass fails, the slot of a key of that name
goes through its states in one order: there is none, then one compilation owns it, then it keeps an
outcome. The slots of a name are discarded only when the name is registered a second time.
-/

namespace KernelFront.Cache

variable {setting : Inference.Setting}

/-- What a step of a thread does to the slot of a key, with what is seen of it. -/
inductive SlotMove (me : ThreadId) (before : Shared) (thread : Thread) (key : Key) :
    Option Slot → List Event → Prop where
  | same {events : List Event} (hclaims : events.countP (Event.claims key) = 0) :
      SlotMove me before thread key (before.slots.get? key) events
  | granted (hawaits : thread.awaits? = some key) (hfree : before.slots.get? key = none) :
      SlotMove me before thread key (some (.inFlight me)) [.claimed key]
  | discarded (hdiscards : thread.discards? = some key.name) :
      SlotMove me before thread key none []
  | settled {claimed : Claimed} {entry : Entry} {callers : List Caller}
      (hthread : thread = .active (.settling claimed entry) callers) (hkey : claimed.key = key)
      (howner : before.owner? key = some me) :
      SlotMove me before thread key (some (.done entry)) []
  | released {claimed : Claimed} {outcome : Option Entry} {callers : List Caller}
      (hthread : thread = .active (.releasing claimed outcome) callers) (hkey : claimed.key = key)
      (howner : before.owner? key = some me) : SlotMove me before thread key none []

/-- A step changes a slot only by claiming its key, by giving it an outcome, by giving it up, or by
discarding all slots of its name. -/
theorem Advances.slotMove {me : ThreadId} {shared after : Shared} {activity : Activity}
    {callers : List Caller} {thread : Thread} {events : List Event}
    (hadvances : Advances setting me shared activity callers thread after events) (key : Key) :
    SlotMove me shared (.active activity callers) key (after.slots.get? key) events := by
  cases hadvances with
  | onward hmove =>
      cases hmove with
      | discard =>
          rw [Shared.get?_discard]
          split
          · exact .discarded (by simp [Thread.discards?, *])
          · exact .same rfl
      | @grant asked hfree =>
          rw [Table.get?_insert]
          split
          · rename_i hkey
            subst hkey
            exact .granted rfl hfree
          · rename_i hkey
            exact .same (by simp [Event.claims, Ne.symm hkey])
      | settle =>
          rw [Shared.get?_settle]
          split
          · rename_i howner
            exact .settled rfl howner.1.symm (howner.1 ▸ howner.2)
          · exact .same rfl
      | release =>
          rw [Shared.get?_release]
          split
          · rename_i howner
            exact .released rfl howner.1.symm (howner.1 ▸ howner.2)
          · exact .same rfl
      | _ => exact .same rfl
  | nested => exact .same rfl
  | resumed _ _ hslots _ hlogs =>
      rw [hslots]
      exact .same (countP_of_logs hlogs fun _ => rfl)
  | replied _ _ hslots _ hlogs =>
      rw [hslots]
      refine .same ?_
      rw [List.countP_append, countP_of_logs hlogs fun _ => rfl]
      rfl
  | unwound _ hfails => obtain ⟨_, rfl⟩ | ⟨_, rfl, _⟩ := hfails <;> exact .same rfl

theorem Reachable.slotMove {world next : World} {me : ThreadId} {events : List Event}
    (hreach : Reachable setting world) (hstep : Step setting world me events next) (key : Key) :
    SlotMove me world.shared (world.threads me) key (next.shared.slots.get? key) events := by
  cases hstep with
  | «begin» request rest => exact .same rfl
  | advance busy moves =>
      rw [World.afterTurn_shared, busy]
      exact (hreach.advances busy moves).slotMove key
  | wake waits => exact .same rfl
  | panic fails => exact .same rfl

/-! ## A name that is registered once is never redefined -/

/-- The name that a thread is about to register. -/
def Thread.replaces? : Thread → Option String
  | .active (.replacing func) _ => some func.name
  | _ => none

/-- The event begins a registration of the name. -/
def Event.registers (name : String) : Event → Bool
  | .begun (.register func) => func.name = name
  | _ => false

/-- How far the only registration of a name has come, if there is one at all. -/
structure World.Single (world : World) (name : String) (registrations : Nat) : Prop where
  absent : registrations = 0 →
    ¬ world.shared.isRegistered name ∧ ∀ thread, (world.threads thread).replaces? ≠ some name
  replacing : ∀ {thread}, (world.threads thread).replaces? = some name →
    ¬ world.shared.isRegistered name ∧
      ∀ other, (world.threads other).replaces? = some name → other = thread
  undisturbed : ∀ thread, (world.threads thread).discards? ≠ some name

@[simp] theorem Thread.replaces?_wake (thread : Thread) :
    thread.wake.replaces? = thread.replaces? := by
  unfold wake
  split <;> rfl

@[simp] theorem Thread.discards?_wake (thread : Thread) :
    thread.wake.discards? = thread.discards? := by
  unfold wake
  split <;> rfl

/-- A registration is only ever begun, and slots are discarded only after the source of a registered
function was replaced. -/
theorem Advances.registration {me : ThreadId} {shared after : Shared} {activity : Activity}
    {callers : List Caller} {thread : Thread} {events : List Event}
    (hadvances : Advances setting me shared activity callers thread after events) :
    thread.replaces? = none ∧ ∀ name, thread.discards? = some name →
      (Thread.active activity callers).replaces? = some name ∧ shared.isRegistered name := by
  cases hadvances with
  | onward hmove =>
      cases hmove with
      | redefine hregistered =>
          refine ⟨rfl, fun name hname => ?_⟩
          cases hname
          exact ⟨rfl, hregistered⟩
      | _ => exact ⟨rfl, nofun⟩
  | nested | resumed | replied => exact ⟨rfl, nofun⟩
  | unwound _ hfails =>
      obtain ⟨rfl, _⟩ | ⟨rest, _, rfl | ⟨claimed, rfl⟩⟩ := hfails <;> exact ⟨rfl, nofun⟩

namespace Step

variable {world next : World} {me : ThreadId} {events : List Event} {name : String}

theorem begun_of_replaces? (hreach : Reachable setting world)
    (hstep : Step setting world me events next)
    (hreplaces : (next.threads me).replaces? = some name) :
    0 < events.countP (Event.registers name) ∧ next.shared = world.shared := by
  cases hstep with
  | «begin» request rest =>
      simp only [World.setThread, if_true] at hreplaces
      cases request with
      | register func =>
          cases hreplaces
          exact ⟨by simp [Event.registers], rfl⟩
      | compile key => cases hreplaces
      | compileDeclared name signature => cases hreplaces
  | advance busy moves =>
      rw [World.afterTurn_self Thread.replaces?_wake,
        (hreach.advances busy moves).registration.1] at hreplaces
      cases hreplaces
  | wake waits =>
      simp only [World.setThread, if_true] at hreplaces
      cases hreplaces
  | panic fails =>
      unfold Thread.panic? at fails
      split at fails <;> cases fails <;> simp [World.setThread, Thread.replaces?] at hreplaces

theorem replaces?_of_discards? (hreach : Reachable setting world)
    (hstep : Step setting world me events next)
    (hdiscards : (next.threads me).discards? = some name) :
    (world.threads me).replaces? = some name ∧ world.shared.isRegistered name := by
  cases hstep with
  | «begin» request rest =>
      simp only [World.setThread, if_true] at hdiscards
      cases request <;> cases hdiscards
  | advance busy moves =>
      rw [World.afterTurn_self Thread.discards?_wake] at hdiscards
      rw [busy]
      exact (hreach.advances busy moves).registration.2 name hdiscards
  | wake waits =>
      simp only [World.setThread, if_true] at hdiscards
      cases hdiscards
  | panic fails =>
      unfold Thread.panic? at fails
      split at fails <;> cases fails <;> simp [World.setThread, Thread.discards?] at hdiscards

theorem replaces?_of_isRegistered (hstep : Step setting world me events next)
    (hregistered : next.shared.isRegistered name) :
    world.shared.isRegistered name ∨ (world.threads me).replaces? = some name := by
  cases hstep with
  | «begin» request rest => exact .inl hregistered
  | advance busy moves =>
      rw [World.afterTurn_shared] at hregistered
      unfold Shared.isRegistered Table.contains at *
      obtain hsame | ⟨func, rfl, hsources, _⟩ := advance_sources moves
      · exact .inl (by rwa [hsame] at hregistered)
      · rw [hsources, Table.get?_insert] at hregistered
        split at hregistered
        · rename_i hname
          exact .inr (by rw [busy, hname]; rfl)
        · exact .inl hregistered
  | wake waits => exact .inl hregistered
  | panic fails => exact .inl hregistered

end Step

theorem World.Single.step {world next : World} {me : ThreadId} {events : List Event}
    {name : String} {registrations : Nat} (hsingle : world.Single name registrations)
    (hreach : Reachable setting world) (hstep : Step setting world me events next)
    (hle : registrations + events.countP (Event.registers name) ≤ 1) :
    next.Single name (registrations + events.countP (Event.registers name)) := by
  have hunregistered : ¬ world.shared.isRegistered name →
      (world.threads me).replaces? ≠ some name → ¬ next.shared.isRegistered name := by
    intro hmissing hother hregistered
    obtain hregistered | hreplaces := hstep.replaces?_of_isRegistered hregistered
    · exact hmissing hregistered
    · exact hother hreplaces
  have hnone : registrations = 0 → ∀ thread, thread ≠ me →
      (next.threads thread).replaces? ≠ some name := by
    intro hzero thread hne
    rw [hstep.view_of_ne Thread.replaces?_wake hne]
    exact (hsingle.absent hzero).2 thread
  constructor
  · intro hzero
    obtain ⟨hmissing, hothers⟩ := hsingle.absent (by omega)
    refine ⟨hunregistered hmissing (hothers me), fun thread hreplaces => ?_⟩
    by_cases hme : thread = me
    · subst hme
      have hbegun := (hstep.begun_of_replaces? hreach hreplaces).1
      omega
    · exact hnone (by omega) thread hme hreplaces
  · intro thread hreplaces
    by_cases hme : thread = me
    · -- The registration has just begun, so there was none before it.
      subst hme
      obtain ⟨hbegun, hshared⟩ := hstep.begun_of_replaces? hreach hreplaces
      have hzero : registrations = 0 := by omega
      refine ⟨hshared ▸ (hsingle.absent hzero).1, fun other hother => ?_⟩
      by_contra hne
      exact hnone hzero other hne hother
    · rw [hstep.view_of_ne Thread.replaces?_wake hme] at hreplaces
      obtain ⟨hmissing, hunique⟩ := hsingle.replacing hreplaces
      have hsilent := hunregistered hmissing fun hsame => hme (hunique me hsame).symm
      refine ⟨hsilent, fun other hother => ?_⟩
      by_cases hother' : other = me
      · subst hother'
        have hbegun := (hstep.begun_of_replaces? hreach hother).1
        exact absurd hreplaces ((hsingle.absent (by omega)).2 thread)
      · rw [hstep.view_of_ne Thread.replaces?_wake hother'] at hother
        exact hunique other hother
  · intro thread hdiscards
    by_cases hme : thread = me
    · subst hme
      obtain ⟨hreplaces, hregistered⟩ := hstep.replaces?_of_discards? hreach hdiscards
      exact (hsingle.replacing hreplaces).1 hregistered
    · rw [hstep.view_of_ne Thread.discards?_wake hme] at hdiscards
      exact hsingle.undisturbed thread hdiscards

/-! ## The only compilation of a key -/

/-- The compilation whose outcome a thread has stored, with that outcome. -/
def Thread.settled? : Thread → Option (Claimed × Entry)
  | .active (.releasing claimed (some entry)) _ | .active (.notifying claimed (some entry)) _ =>
      some (claimed, entry)
  | _ => none

/-- The compilations of a key that threads are in the middle of agree with its slot: the one that is
not settled owns it, and the outcome of one that is settled is there. -/
structure World.Kept (world : World) (key : Key) : Prop where
  owned : ∀ {thread frame}, frame ∈ (world.threads thread).frames → frame.claimed.key = key →
    frame.stage ≠ .settled → world.shared.owner? key = some thread
  alone : ∀ thread,
    (world.threads thread).frames.countP (fun frame => frame.claimed.key = key) ≤ 1
  settled : ∀ {thread claimed entry}, (world.threads thread).settled? = some (claimed, entry) →
    claimed.key = key → world.shared.slots.get? key = some (.done entry)

@[simp] theorem Thread.settled?_wake (thread : Thread) :
    thread.wake.settled? = thread.settled? := by
  unfold wake
  split <;> rfl

/-- In a thread that does not fail, the only compilation that is settled is the one that the thread
is about to leave. -/
theorem Thread.stage_of_calm {thread : Thread} {frame : Frame} (hcalm : thread.failing = false)
    (hmem : frame ∈ thread.frames) : frame.stage ≠ .failed ∧
      (frame.stage = .settled → ∃ entry, thread.settled? = some (frame.claimed, entry)) := by
  cases thread with
  | idle => cases hmem
  | active activity callers =>
      obtain hinner | houter := List.mem_append.mp hmem
      · rw [Option.mem_toList] at hinner
        cases activity with
        | running claimed passes =>
            cases claimed with
            | none => cases hinner
            | some claimed =>
                cases hinner
                exact ⟨nofun, nofun⟩
        | reading claimed | settling claimed entry =>
            cases hinner
            exact ⟨nofun, nofun⟩
        | releasing claimed outcome | notifying claimed outcome =>
            cases outcome with
            | none => cases hcalm
            | some entry =>
                cases hinner
                exact ⟨nofun, fun _ => ⟨entry, rfl⟩⟩
        | _ => cases hinner
      · obtain ⟨caller, _, hframe⟩ := List.mem_filterMap.mp houter
        obtain ⟨claimed, _, rfl⟩ := Option.map_eq_some_iff.mp hframe
        exact ⟨nofun, nofun⟩

/-- The outcome of a compilation is settled when the thread has offered it to the slot. -/
theorem Advances.settled? {me : ThreadId} {shared after : Shared} {activity : Activity}
    {callers : List Caller} {thread : Thread} {events : List Event} {claimed : Claimed}
    {entry : Entry} (hadvances : Advances setting me shared activity callers thread after events)
    (hsettled : thread.settled? = some (claimed, entry)) :
    activity = .settling claimed entry ∧ after = shared.settle me claimed.key entry ∨
      (Thread.active activity callers).settled? = some (claimed, entry) := by
  cases hadvances with
  | onward hmove =>
      cases hmove with
      | settle =>
          cases hsettled
          exact .inl ⟨rfl, rfl⟩
      | @release released outcome =>
          cases outcome with
          | none => cases hsettled
          | some settled =>
              cases hsettled
              exact .inr rfl
      | _ => cases hsettled
  | nested | resumed | replied => cases hsettled
  | unwound _ hfails =>
      obtain ⟨rfl, _⟩ | ⟨rest, _, rfl | ⟨failed, rfl⟩⟩ := hfails <;> cases hsettled

theorem Reachable.settled? {world next : World} {me : ThreadId} {events : List Event}
    {claimed : Claimed} {entry : Entry} (hreach : Reachable setting world)
    (hstep : Step setting world me events next)
    (hsettled : (next.threads me).settled? = some (claimed, entry)) :
    (∃ callers, world.threads me = .active (.settling claimed entry) callers) ∧
        next.shared = world.shared.settle me claimed.key entry ∨
      (world.threads me).settled? = some (claimed, entry) := by
  cases hstep with
  | «begin» request rest =>
      simp only [World.setThread, if_true] at hsettled
      cases request <;> cases hsettled
  | @advance activity callers turn busy moves =>
      rw [World.afterTurn_self Thread.settled?_wake] at hsettled
      rw [World.afterTurn_shared, busy]
      obtain ⟨rfl, hafter⟩ | hbefore := (hreach.advances busy moves).settled? hsettled
      · exact .inl ⟨⟨callers, rfl⟩, hafter⟩
      · exact .inr hbefore
  | wake waits =>
      simp only [World.setThread, if_true] at hsettled
      cases hsettled
  | panic fails =>
      unfold Thread.panic? at fails
      split at fails <;> cases fails <;> simp [World.setThread, Thread.settled?] at hsettled

namespace World.Kept

variable {world next : World} {me : ThreadId} {events : List Event} {key : Key}

/-- While nobody discards it, a slot changes in two ways only. -/
theorem slotMove (hkept : world.Kept key) (hreach : Reachable setting world)
    (hstep : Step setting world me events next) (hcalm : (world.threads me).failing = false)
    (hundisturbed : (world.threads me).discards? ≠ some key.name) :
    next.shared.slots.get? key = world.shared.slots.get? key ∧
        events.countP (Event.claims key) = 0 ∨
      world.shared.slots.get? key = none ∧ events = [.claimed key] ∧
        next.shared.owner? key = some me ∨
      world.shared.owner? key = some me ∧ events = [] ∧
        ∃ entry, next.shared.slots.get? key = some (.done entry) := by
  have hmove := hreach.slotMove hstep key
  rw [Shared.owner?_eq_some]
  generalize next.shared.slots.get? key = slot at hmove ⊢
  cases hmove with
  | same hclaims => exact .inl ⟨rfl, hclaims⟩
  | granted _ hfree => exact .inr (.inl ⟨hfree, rfl, rfl⟩)
  | discarded hdiscards => exact absurd hdiscards hundisturbed
  | settled _ _ howner => exact .inr (.inr ⟨howner, rfl, _, rfl⟩)
  | @released claimed outcome callers hthread hkey howner =>
      -- Its outcome was stored before, so the thread does not own the key any more.
      cases outcome with
      | none =>
          rw [hthread] at hcalm
          cases hcalm
      | some entry =>
          have hdone := hkept.settled (by rw [hthread]; rfl) hkey
          exact nomatch hdone.symm.trans (Shared.owner?_eq_some.mp howner)

/-- An outcome that was stored stays. -/
theorem done_step (hkept : world.Kept key) (hreach : Reachable setting world)
    (hstep : Step setting world me events next) (hcalm : (world.threads me).failing = false)
    (hundisturbed : (world.threads me).discards? ≠ some key.name) {entry : Entry}
    (hdone : world.shared.slots.get? key = some (.done entry)) :
    next.shared.slots.get? key = some (.done entry) := by
  obtain ⟨hsame, _⟩ | ⟨hfree, _⟩ | ⟨howner, _⟩ :=
    hkept.slotMove hreach hstep hcalm hundisturbed
  · rw [hsame, hdone]
  · exact nomatch hfree.symm.trans hdone
  · exact nomatch hdone.symm.trans (Shared.owner?_eq_some.mp howner)

/-- A key that has no slot is not being compiled. -/
theorem countP_of_free (hkept : world.Kept key) {thread : ThreadId}
    (hcalm : (world.threads thread).failing = false)
    (hfree : world.shared.slots.get? key = none) :
    (world.threads thread).frames.countP (fun frame => frame.claimed.key = key) = 0 := by
  refine List.countP_eq_zero.mpr fun frame hmem hkey => ?_
  have hkey : frame.claimed.key = key := of_decide_eq_true hkey
  by_cases hstage : frame.stage = .settled
  · obtain ⟨entry, hsettled⟩ := (Thread.stage_of_calm hcalm hmem).2 hstage
    exact nomatch hfree.symm.trans (hkept.settled hsettled hkey)
  · have howner := Shared.owner?_eq_some.mp (hkept.owned hmem hkey hstage)
    exact nomatch hfree.symm.trans howner

end World.Kept

theorem StackMove.map_claimed {shared : Shared} {stack next : List Frame}
    (hmove : StackMove setting shared stack next) :
    next.map Frame.claimed = stack.map Frame.claimed := by
  cases hmove <;> rfl

/-- A compilation that is in progress after a move was so before, unless it fails. -/
theorem StackMove.mem_unsettled {shared : Shared} {stack next : List Frame}
    (hmove : StackMove setting shared stack next) {frame : Frame} (hmem : frame ∈ next)
    (hsettled : frame.stage ≠ .settled) (hfailed : frame.stage ≠ .failed) :
    ∃ stage, ⟨frame.claimed, stage⟩ ∈ stack ∧ stage ≠ .settled := by
  cases hmove with
  | stay => exact ⟨frame.stage, hmem, hsettled⟩
  | @step claimed stage _ rest hmove =>
      obtain rfl | hrest := List.mem_cons.mp hmem
      · refine ⟨stage, List.mem_cons_self, ?_⟩
        rintro rfl
        cases hmove
        exact hfailed rfl
      · exact ⟨frame.stage, List.mem_cons_of_mem _ hrest, hsettled⟩

theorem countP_claimed (key : Key) (frames : List Frame) :
    frames.countP (fun frame => frame.claimed.key = key) =
      (frames.map Frame.claimed).countP (fun claimed => claimed.key = key) := by
  rw [List.countP_map]
  rfl

/-- Below the only compilation of a key there are none. -/
theorem key_ne_of_countP {key : Key} {head frame : Frame} {rest : List Frame}
    (halone : (head :: rest).countP (fun frame => frame.claimed.key = key) ≤ 1)
    (hmem : frame ∈ rest) (hkey : frame.claimed.key = key) : key ≠ head.claimed.key := by
  rintro rfl
  rw [List.countP_cons_of_pos (by simp)] at halone
  have hzero : rest.countP (fun frame => frame.claimed.key = head.claimed.key) = 0 := by omega
  exact List.countP_eq_zero.mp hzero frame hmem (by simpa using hkey)

namespace World.Kept

variable {world next : World} {me : ThreadId} {events : List Event} {key : Key}

/-- A thread that gets on with its compilations still agrees with the slot. -/
theorem frames_step (hkept : world.Kept key) (hreach : Reachable setting world)
    (hstep : Step setting world me events next) (hbefore : (world.threads me).failing = false)
    (hcalm : (next.threads me).failing = false) :
    (next.threads me).frames.countP (fun frame => frame.claimed.key = key) ≤ 1 ∧
      ∀ frame ∈ (next.threads me).frames, frame.claimed.key = key → frame.stage ≠ .settled →
        next.shared.owner? key = some me := by
  have hprogress := hreach.progress hstep
  have hunfailed : ∀ frame ∈ (next.threads me).frames, frame.stage ≠ .failed := fun frame hmem =>
    (Thread.stage_of_calm hcalm hmem).1
  have halone := hkept.alone me
  have howned : ∀ frame ∈ (world.threads me).frames, frame.claimed.key = key →
      frame.stage ≠ .settled → world.shared.owner? key = some me := fun _ => hkept.owned
  have hfree := @countP_of_free world key hkept me hbefore
  generalize (world.threads me).frames = stack at hprogress halone howned hfree
  generalize (next.threads me).frames = frames at hprogress hunfailed ⊢
  generalize next.shared = after at hprogress ⊢
  have hmoved : ∀ {rest : List Frame}, StackMove setting world.shared rest frames →
      (∀ frame ∈ rest, frame ∈ stack) → ∀ frame ∈ frames, frame.claimed.key = key →
        frame.stage ≠ .settled → world.shared.owner? key = some me := by
    intro rest hmove hsubset frame hmem hkey hstage
    obtain ⟨stage, hold, hunsettled⟩ := hmove.mem_unsettled hmem hstage (hunfailed frame hmem)
    exact howned _ (hsubset _ hold) hkey hunsettled
  cases hprogress with
  | work hmove hslots _ _ =>
      rw [countP_claimed, hmove.map_claimed, ← countP_claimed, Shared.owner?_congr hslots]
      exact ⟨halone, hmoved hmove fun _ hmem => hmem⟩
  | replace | discard => exact ⟨Nat.zero_le _, fun frame hmem => nomatch hmem⟩
  | grant granted _ hnew hslots _ _ =>
      by_cases hkey : granted = key
      · subst hkey
        constructor
        · rw [List.countP_cons, hfree hnew]
          split <;> omega
        · intro frame _ _ _
          rw [Shared.owner?_eq_some, hslots]
          simp
      · constructor
        · rwa [List.countP_cons_of_neg (by simpa using hkey)]
        · intro frame hmem hsame hstage
          obtain rfl | hold := List.mem_cons.mp hmem
          · exact absurd hsame hkey
          · rw [Shared.owner?_eq_some, hslots, Table.get?_insert, if_neg (Ne.symm hkey),
              ← Shared.owner?_eq_some]
            exact howned frame hold hsame hstage
  | @settle rest claimed entry =>
      refine ⟨by simpa [countP_claimed] using halone, fun frame hmem hsame hstage => ?_⟩
      obtain rfl | hold := List.mem_cons.mp hmem
      · exact absurd rfl hstage
      · have hkey := key_ne_of_countP halone hold hsame
        rw [Shared.owner?_eq_some, Shared.get?_settle,
          if_neg fun hboth => hkey hboth.1, ← Shared.owner?_eq_some]
        exact howned frame (List.mem_cons_of_mem _ hold) hsame hstage
  | @release rest stage claimed =>
      refine ⟨by simpa [countP_claimed] using halone, fun frame hmem hsame hstage => ?_⟩
      obtain rfl | hold := List.mem_cons.mp hmem
      · exact absurd rfl hstage
      · have hkey := key_ne_of_countP halone hold hsame
        rw [Shared.owner?_eq_some, Shared.get?_release,
          if_neg fun hboth => hkey hboth.1, ← Shared.owner?_eq_some]
        exact howned frame (List.mem_cons_of_mem _ hold) hsame hstage
  | leave claimed hmove =>
      constructor
      · rw [countP_claimed, hmove.map_claimed, ← countP_claimed]
        rw [List.countP_cons] at halone
        omega
      · exact hmoved hmove fun _ hmem => List.mem_cons_of_mem _ hmem

theorem step (hkept : world.Kept key) (hreach : Reachable setting world)
    (hstep : Step setting world me events next) (hbefore : (world.threads me).failing = false)
    (hcalm : (next.threads me).failing = false)
    (hundisturbed : (world.threads me).discards? ≠ some key.name) : next.Kept key := by
  obtain ⟨halone, howned⟩ := hkept.frames_step hreach hstep hbefore hcalm
  have hslot := hkept.slotMove hreach hstep hbefore hundisturbed
  have hdone : ∀ {entry}, world.shared.slots.get? key = some (.done entry) →
      next.shared.slots.get? key = some (.done entry) :=
    hkept.done_step hreach hstep hbefore hundisturbed
  constructor
  · intro thread frame hmem hkey hstage
    by_cases hme : thread = me
    · subst hme
      exact howned frame hmem hkey hstage
    · rw [hstep.frames_of_ne hme] at hmem
      have hinFlight := Shared.owner?_eq_some.mp (hkept.owned hmem hkey hstage)
      obtain ⟨hsame, _⟩ | ⟨hfree, _⟩ | ⟨howner, _⟩ := hslot
      · rw [Shared.owner?_eq_some, hsame, hinFlight]
      · exact nomatch hfree.symm.trans hinFlight
      · rw [Shared.owner?_eq_some, hinFlight] at howner
        cases howner
        exact absurd rfl hme
  · intro thread
    by_cases hme : thread = me
    · rwa [hme]
    · rw [hstep.frames_of_ne hme]
      exact hkept.alone thread
  · intro thread claimed entry hsettled hkey
    by_cases hme : thread = me
    · subst hme
      obtain ⟨⟨callers, hsettling⟩, hshared⟩ | hold := hreach.settled? hstep hsettled
      · have hmem : ⟨claimed, .settling entry⟩ ∈ (world.threads thread).frames := by
          rw [hsettling]
          exact List.mem_cons_self
        have howner := hkept.owned hmem hkey nofun
        rw [hshared, Shared.get?_settle, hkey, if_pos ⟨rfl, howner⟩]
      · exact hdone (hkept.settled hold hkey)
    · rw [hstep.view_of_ne Thread.settled?_wake hme] at hsettled
      exact hdone (hkept.settled hsettled hkey)

end World.Kept

/-! ## Runs -/

theorem World.Single.initial (name : String) : World.initial.Single name 0 :=
  ⟨fun _ => ⟨nofun, fun _ => nofun⟩, nofun, fun _ => nofun⟩

theorem World.Kept.initial (key : Key) : World.initial.Kept key := by
  constructor
  · intro thread frame hmem
    cases hmem
  · intro thread
    exact Nat.zero_le _
  · intro thread claimed entry hsettled
    cases hsettled

theorem CalmRun.reachable {world : World} {seen : List (ThreadId × Event)}
    (hrun : CalmRun setting .initial seen world) : Reachable setting world :=
  ⟨seen, hrun.run⟩

theorem CalmRun.calm {world : World} {seen : List (ThreadId × Event)}
    (hrun : CalmRun setting .initial seen world) (thread : ThreadId) :
    (world.threads thread).failing = false :=
  hrun.failing (fun _ => rfl) thread

theorem CalmRun.single {world : World} {seen : List (ThreadId × Event)} {name : String}
    (hrun : CalmRun setting .initial seen world)
    (hsingle : seen.countP (fun entry => entry.2.registers name) ≤ 1) :
    world.Single name (seen.countP fun entry => entry.2.registers name) := by
  induction hrun with
  | nil => exact .initial name
  | @step before after me seen events past next calm ih =>
      rw [List.countP_append, countP_tagged (Event.registers name)] at hsingle ⊢
      exact (ih (by omega)).step past.reachable next hsingle

/-- In a run that registers a name once, a key of that name is claimed as often as it has a slot. -/
theorem CalmRun.kept {world : World} {seen : List (ThreadId × Event)} {key : Key}
    (hrun : CalmRun setting .initial seen world)
    (hsingle : seen.countP (fun entry => entry.2.registers key.name) ≤ 1) :
    world.Kept key ∧ seen.countP (fun entry => entry.2.claims key) =
      if (world.shared.slots.get? key).isSome then 1 else 0 := by
  induction hrun with
  | nil => exact ⟨.initial key, rfl⟩
  | @step before after me seen events past next calm ih =>
      rw [List.countP_append, countP_tagged (Event.registers key.name)] at hsingle
      have hle : seen.countP (fun entry => entry.2.registers key.name) ≤ 1 := by omega
      obtain ⟨hkept, hclaims⟩ := ih hle
      have hundisturbed := (past.single hle).undisturbed me
      refine ⟨hkept.step past.reachable next (past.calm me) calm hundisturbed, ?_⟩
      rw [List.countP_append, hclaims, countP_tagged (Event.claims key)]
      obtain ⟨hsame, hnone⟩ | ⟨hfree, rfl, howner⟩ | ⟨howner, rfl, entry, hdone⟩ :=
        hkept.slotMove past.reachable next (past.calm me) hundisturbed
      · rw [hsame, hnone]
        omega
      · rw [hfree, Shared.owner?_eq_some.mp howner]
        simp [Event.claims]
      · rw [Shared.owner?_eq_some.mp howner, hdone]
        rfl

/-- The outcome of a key stays the same for the rest of a run that does not register its name
again. -/
theorem CalmRun.done {middle world : World} {seen later : List (ThreadId × Event)} {key : Key}
    {entry : Entry} (hbefore : CalmRun setting .initial seen middle)
    (hafter : CalmRun setting middle later world)
    (hsingle : (seen ++ later).countP (fun entry => entry.2.registers key.name) ≤ 1)
    (hdone : middle.shared.slots.get? key = some (.done entry)) :
    world.shared.slots.get? key = some (.done entry) := by
  induction hafter with
  | nil => exact hdone
  | @step before after me later events past next calm ih =>
      rw [← List.append_assoc, List.countP_append] at hsingle
      have hle : (seen ++ later).countP (fun entry => entry.2.registers key.name) ≤ 1 := by omega
      have hall := hbefore.append past
      exact (hall.kept hle).1.done_step hall.reachable next (hall.calm me)
        ((hall.single hle).undisturbed me) (ih hle)

end KernelFront.Cache
