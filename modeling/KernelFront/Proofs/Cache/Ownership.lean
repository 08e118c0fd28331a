import KernelFront.Proofs.Cache.Steps

/-! # Who compiles a key

A slot in flight belongs to a thread, and among the compilations of that thread to the innermost one
of its key. So the identity of the thread is enough to tell whether a compilation still owns its
key, although a thread can lose a key and claim it again inside the compilation that lost it.
-/

namespace KernelFront.Cache

variable {setting : Inference.Setting}

/-! ## Reachable worlds -/

theorem Reachable.initial : Reachable setting World.initial := ⟨[], .nil⟩

theorem Reachable.step {world next : World} {me : ThreadId} {events : List Event}
    (hreach : Reachable setting world) (hstep : Step setting world me events next) :
    Reachable setting next := by
  obtain ⟨seen, hrun⟩ := hreach
  exact ⟨_, hrun.step hstep⟩

/-- What every step preserves, a run preserves. -/
theorem Run.preserves (invariant : World → Prop) {start world : World}
    {seen : List (ThreadId × Event)} (hrun : Run setting start seen world)
    (hstep : ∀ {before after : World} {me : ThreadId} {events : List Event},
      invariant before → Step setting before me events after → invariant after)
    (hstart : invariant start) : invariant world := by
  induction hrun with
  | nil => exact hstart
  | step _ next ih => exact hstep ih next

theorem Run.reachable {start world : World} {seen : List (ThreadId × Event)}
    (hrun : Run setting start seen world) (hstart : Reachable setting start) :
    Reachable setting world :=
  hrun.preserves (Reachable setting) Reachable.step hstart

/-- What holds at first and is preserved by steps between reachable worlds holds of all of them. -/
theorem Reachable.invariant (invariant : World → Prop) {world : World}
    (hreach : Reachable setting world) (hinitial : invariant .initial)
    (hstep : ∀ {before after : World} {me : ThreadId} {events : List Event},
      Reachable setting before → invariant before → Step setting before me events after →
        invariant after) : invariant world := by
  obtain ⟨seen, hrun⟩ := hreach
  have hboth : Reachable setting world ∧ invariant world :=
    hrun.preserves (fun world => Reachable setting world ∧ invariant world)
      (fun hbefore hnext => ⟨hbefore.1.step hnext, hstep hbefore.1 hbefore.2 hnext⟩)
      ⟨.initial, hinitial⟩
  exact hboth.2

theorem Reachable.nested {world : World} (hreach : Reachable setting world) (thread : ThreadId) :
    (world.threads thread).Nested :=
  hreach.invariant (fun world => ∀ thread, (world.threads thread).Nested)
    (fun _ => trivial) (fun _ hnested hstep => hstep.nested hnested) thread

/-- A step between reachable worlds makes progress. -/
theorem Reachable.progress {world next : World} {me : ThreadId} {events : List Event}
    (hreach : Reachable setting world) (hstep : Step setting world me events next) :
    Progress setting me world.shared (world.threads me).awaits? (world.threads me).frames
      (next.threads me).frames next.shared :=
  hstep.progress (hreach.nested me)

/-! ## Slots -/

namespace Shared

theorem owner?_eq_some {shared : Shared} {key : Key} {owner : ThreadId} :
    shared.owner? key = some owner ↔ shared.slots.get? key = some (.inFlight owner) := by
  unfold owner?
  split
  · rename_i found hslot
    simp [hslot]
  · rename_i hnone
    simp only [reduceCtorEq, false_iff]
    exact fun hslot => hnone owner hslot

theorem owner?_congr {shared other : Shared} (hslots : other.slots = shared.slots) (key : Key) :
    other.owner? key = shared.owner? key := by
  unfold owner?
  rw [hslots]

theorem get?_discard (shared : Shared) (name : String) (key : Key) :
    (shared.discard name).slots.get? key =
      if key.name = name then none else shared.slots.get? key := by
  by_cases hname : key.name = name <;> simp [discard, Table.get?_retain, hname]

theorem get?_settle (shared : Shared) (me : ThreadId) (key other : Key) (entry : Entry) :
    (shared.settle me key entry).slots.get? other =
      if other = key ∧ shared.owner? key = some me then some (.done entry)
      else shared.slots.get? other := by
  unfold settle
  by_cases howner : shared.owner? key = some me <;> by_cases hkey : other = key <;>
    simp [howner, hkey]

theorem get?_release (shared : Shared) (me : ThreadId) (key other : Key) :
    (shared.release me key).slots.get? other =
      if other = key ∧ shared.owner? key = some me then none else shared.slots.get? other := by
  unfold release
  by_cases howner : shared.owner? key = some me <;> by_cases hkey : other = key <;>
    simp [howner, hkey]

@[simp] theorem sources_settle (shared : Shared) (me : ThreadId) (key : Key) (entry : Entry) :
    (shared.settle me key entry).sources = shared.sources := by
  unfold settle
  split <;> rfl

@[simp] theorem sources_release (shared : Shared) (me : ThreadId) (key : Key) :
    (shared.release me key).sources = shared.sources := by
  unfold release
  split <;> rfl

end Shared

/-- A step of a thread makes no other thread the owner of a key, and itself only of a key that it is
about to look at. -/
theorem Progress.owner? {me : ThreadId} {before after : Shared} {awaited : Option Key}
    {stack next : List Frame} (hprogress : Progress setting me before awaited stack next after)
    {key : Key} {owner : ThreadId} (howner : after.owner? key = some owner) :
    before.owner? key = some owner ∨
      owner = me ∧ awaited = some key ∧ next = ⟨⟨key, before.compiles + 1⟩, .reading⟩ :: stack := by
  cases hprogress with
  | work _ hslots _ _ => exact .inl (by rwa [Shared.owner?_congr hslots] at howner)
  | replace _ hslots _ _ => exact .inl (by rwa [Shared.owner?_congr hslots] at howner)
  | discard name =>
      rw [Shared.owner?_eq_some, Shared.get?_discard] at howner
      split at howner
      · cases howner
      · exact .inl (Shared.owner?_eq_some.mpr howner)
  | grant granted hawaited _ hslots _ _ =>
      rw [Shared.owner?_eq_some, hslots, Table.get?_insert] at howner
      split at howner
      · rename_i hkey
        cases howner
        exact .inr ⟨rfl, by rw [hkey, hawaited], by rw [hkey]⟩
      · exact .inl (Shared.owner?_eq_some.mpr howner)
  | settle claimed entry =>
      rw [Shared.owner?_eq_some, Shared.get?_settle] at howner
      split at howner
      · cases howner
      · exact .inl (Shared.owner?_eq_some.mpr howner)
  | release claimed =>
      rw [Shared.owner?_eq_some, Shared.get?_release] at howner
      split at howner
      · cases howner
      · exact .inl (Shared.owner?_eq_some.mpr howner)
  | leave => exact .inl howner

/-! ## Keys in the cache are registered -/

theorem Progress.isRegistered {me : ThreadId} {before after : Shared} {awaited : Option Key}
    {stack next : List Frame} (hprogress : Progress setting me before awaited stack next after)
    {name : String} (hregistered : before.isRegistered name) : after.isRegistered name := by
  unfold Shared.isRegistered Table.contains at *
  cases hprogress with
  | work _ _ hsources _ => rwa [hsources]
  | replace func _ hsources _ =>
      rw [hsources, Table.get?_insert]
      split
      · rfl
      · exact hregistered
  | discard => exact hregistered
  | grant _ _ _ _ hsources _ => rwa [hsources]
  | settle => rwa [Shared.sources_settle]
  | release => rwa [Shared.sources_release]
  | leave => exact hregistered

/-- Slots are made only for keys that a thread is about to look at. -/
theorem Progress.get? {me : ThreadId} {before after : Shared} {awaited : Option Key}
    {stack next : List Frame} (hprogress : Progress setting me before awaited stack next after)
    {key : Key} (hslot : after.slots.get? key ≠ none) :
    before.slots.get? key ≠ none ∨ awaited = some key := by
  cases hprogress with
  | work _ hslots _ _ => exact .inl (by rwa [hslots] at hslot)
  | replace _ hslots _ _ => exact .inl (by rwa [hslots] at hslot)
  | discard name =>
      rw [Shared.get?_discard] at hslot
      split at hslot
      · exact absurd rfl hslot
      · exact .inl hslot
  | grant granted hawaited _ hslots _ _ =>
      rw [hslots, Table.get?_insert] at hslot
      split at hslot
      · rename_i hkey
        exact .inr (by rw [hkey, hawaited])
      · exact .inl hslot
  | settle claimed entry =>
      rw [Shared.get?_settle] at hslot
      split at hslot
      · rename_i howner
        have hinFlight := Shared.owner?_eq_some.mp howner.2
        exact .inl (by simp [howner.1, hinFlight])
      · exact .inl hslot
  | release claimed =>
      rw [Shared.get?_release] at hslot
      split at hslot
      · exact absurd rfl hslot
      · exact .inl hslot
  | leave => exact .inl hslot

/-- Every key that has a slot or is asked for belongs to a registered function. -/
theorem Reachable.registered {world : World} (hreach : Reachable setting world) :
    (∀ key, world.shared.slots.get? key ≠ none → world.shared.isRegistered key.name) ∧
      ∀ thread key, (world.threads thread).awaits? = some key →
        world.shared.isRegistered key.name := by
  refine hreach.invariant (fun world =>
    (∀ key, world.shared.slots.get? key ≠ none → world.shared.isRegistered key.name) ∧
      ∀ thread key, (world.threads thread).awaits? = some key →
        world.shared.isRegistered key.name) ⟨?_, ?_⟩ ?_
  · intro key hslot
    exact absurd rfl hslot
  · intro thread key hawaits
    cases hawaits
  · intro before after me events hbefore hregistered hstep
    have hprogress := hbefore.progress hstep
    constructor
    · intro key hslot
      obtain hslot | hawaited := hprogress.get? hslot
      · exact hprogress.isRegistered (hregistered.1 key hslot)
      · exact hprogress.isRegistered (hregistered.2 me key hawaited)
    · intro thread key hawaits
      obtain hawaits | hknown := hstep.awaits? hawaits
      · exact hprogress.isRegistered (hregistered.2 thread key hawaits)
      · exact hprogress.isRegistered hknown

/-! ## Slots in flight belong to the innermost compilation of their key -/

theorem StackMove.of_innermost? {shared : Shared} {stack next : List Frame}
    (hmove : StackMove setting shared stack next) {key : Key} {frame : Frame}
    (hframe : innermost? next key = some frame) :
    ∃ stage, innermost? stack key = some ⟨frame.claimed, stage⟩ ∧
      (stage = frame.stage ∨ StageMove setting shared frame.claimed stage frame.stage) := by
  cases hmove with
  | stay => exact ⟨frame.stage, hframe, .inl rfl⟩
  | @step claimed stage stage' rest hmove =>
      by_cases hkey : claimed.key = key
      · subst hkey
        have hself := innermost?_cons_self ⟨claimed, stage'⟩ rest
        obtain rfl := Option.some.inj (hself.symm.trans hframe)
        exact ⟨stage, innermost?_cons_self ⟨claimed, stage⟩ rest, .inr hmove⟩
      · rw [innermost?_cons_of_ne hkey] at hframe
        exact ⟨frame.stage, by rw [innermost?_cons_of_ne hkey]; exact hframe, .inl rfl⟩

theorem StageMove.ne_settled {shared : Shared} {claimed : Claimed} {stage next : Stage}
    (hmove : StageMove setting shared claimed stage next) : next ≠ .settled := by
  cases hmove <;> simp

theorem StackMove.innermost?_ne_settled {shared : Shared} {stack next : List Frame}
    (hmove : StackMove setting shared stack next) {key : Key} {frame : Frame}
    (hframe : innermost? stack key = some frame) (hstage : frame.stage ≠ .settled) :
    ∃ frame, innermost? next key = some frame ∧ frame.stage ≠ .settled := by
  cases hmove with
  | stay => exact ⟨frame, hframe, hstage⟩
  | @step claimed stage stage' rest hmove =>
      by_cases hkey : claimed.key = key
      · subst hkey
        exact ⟨_, innermost?_cons_self ⟨claimed, stage'⟩ rest, hmove.ne_settled⟩
      · rw [innermost?_cons_of_ne hkey] at hframe
        exact ⟨frame, by rw [innermost?_cons_of_ne hkey]; exact hframe, hstage⟩

/-- The owner of a key is in the middle of compiling it. -/
def World.Owned (world : World) : Prop :=
  ∀ thread key, world.shared.owner? key = some thread →
    ∃ frame, innermost? (world.threads thread).frames key = some frame ∧ frame.stage ≠ .settled

/-- A thread whose step leaves it the owner of a key is still in the middle of compiling it. -/
theorem Progress.owned {me : ThreadId} {before after : Shared} {awaited : Option Key}
    {stack next : List Frame} (hprogress : Progress setting me before awaited stack next after)
    {key : Key} {frame : Frame} (hframe : innermost? stack key = some frame)
    (hstage : frame.stage ≠ .settled) (hbefore : before.owner? key = some me)
    (hafter : after.owner? key = some me) :
    ∃ frame, innermost? next key = some frame ∧ frame.stage ≠ .settled := by
  cases hprogress with
  | work hmove _ _ _ => exact hmove.innermost?_ne_settled hframe hstage
  | replace => cases hframe
  | discard => cases hframe
  | grant granted _ hfree _ _ _ =>
      have hne : granted ≠ key := by
        rintro rfl
        exact nomatch hfree.symm.trans (Shared.owner?_eq_some.mp hbefore)
      exact ⟨frame, (innermost?_cons_of_ne hne stack).trans hframe, hstage⟩
  | @settle rest claimed entry =>
      have hne : claimed.key ≠ key := by
        rintro rfl
        simp [Shared.owner?_eq_some, Shared.get?_settle, hbefore] at hafter
      rw [innermost?_cons_of_ne hne] at hframe
      exact ⟨frame, (innermost?_cons_of_ne hne rest).trans hframe, hstage⟩
  | @release rest stage claimed =>
      have hne : claimed.key ≠ key := by
        rintro rfl
        simp [Shared.owner?_eq_some, Shared.get?_release, hbefore] at hafter
      rw [innermost?_cons_of_ne hne] at hframe
      exact ⟨frame, (innermost?_cons_of_ne hne rest).trans hframe, hstage⟩
  | @leave rest next claimed hmove =>
      have hne : claimed.key ≠ key := by
        rintro rfl
        obtain rfl := Option.some.inj ((innermost?_cons_self ⟨claimed, _⟩ rest).symm.trans hframe)
        exact hstage rfl
      rw [innermost?_cons_of_ne hne] at hframe
      exact hmove.innermost?_ne_settled hframe hstage

theorem Reachable.owned {world : World} (hreach : Reachable setting world) : world.Owned := by
  refine hreach.invariant World.Owned ?_ ?_
  · intro thread key howner
    cases howner
  · intro before after me events hbefore howned hstep thread key hafter
    have hprogress := hbefore.progress hstep
    obtain howner | ⟨rfl, _, hnext⟩ := hprogress.owner? hafter
    · obtain ⟨frame, hframe, hstage⟩ := howned thread key howner
      by_cases hme : thread = me
      · subst hme
        exact hprogress.owned hframe hstage howner hafter
      · exact ⟨frame, by rwa [hstep.frames_of_ne hme], hstage⟩
    · rw [hnext]
      exact ⟨_, innermost?_cons_self ⟨⟨key, _⟩, .reading⟩ _, by simp⟩

/-- A thread that compiles nothing owns no key. -/
theorem Reachable.not_owner {world : World} {thread : ThreadId} (hreach : Reachable setting world)
    (hframes : (world.threads thread).frames = []) (key : Key) :
    world.shared.owner? key ≠ some thread := by
  intro howner
  obtain ⟨frame, hframe, _⟩ := hreach.owned thread key howner
  rw [hframes] at hframe
  cases hframe

/-- A compilation that holds its key is new, or it held its key before the step and got on. -/
theorem Reachable.holds_step {world next : World} {me thread : ThreadId} {events : List Event}
    {frame : Frame} (hreach : Reachable setting world)
    (hstep : Step setting world me events next) (hholds : next.Holds thread frame) :
    frame = ⟨⟨frame.claimed.key, world.shared.compiles + 1⟩, .reading⟩ ∨
      ∃ stage, world.Holds thread ⟨frame.claimed, stage⟩ ∧
        (stage = frame.stage ∨ StageMove setting world.shared frame.claimed stage frame.stage) := by
  obtain ⟨hafter, hframe⟩ := hholds
  have hprogress := hreach.progress hstep
  obtain howner | ⟨rfl, _, hnext⟩ := hprogress.owner? hafter
  · right
    by_cases hme : thread = me
    · subst hme
      generalize hstack : (world.threads thread).frames = stack at hprogress
      generalize (next.threads thread).frames = rest at hprogress hframe
      generalize next.shared = after at hprogress hafter
      have hunchanged : innermost? stack frame.claimed.key = some frame →
          ∃ stage, world.Holds thread ⟨frame.claimed, stage⟩ ∧ (stage = frame.stage ∨
            StageMove setting world.shared frame.claimed stage frame.stage) := fun h =>
        ⟨frame.stage, ⟨howner, by rw [hstack]; exact h⟩, .inl rfl⟩
      cases hprogress with
      | work hmove _ _ _ =>
          obtain ⟨stage, hstage, hmoved⟩ := hmove.of_innermost? hframe
          exact ⟨stage, ⟨howner, by rw [hstack]; exact hstage⟩, hmoved⟩
      | replace => cases hframe
      | discard => cases hframe
      | grant granted _ hfree _ _ _ =>
          -- The key that was granted had no owner, so it is another one.
          have hne : granted ≠ frame.claimed.key := by
            rintro rfl
            exact nomatch hfree.symm.trans (Shared.owner?_eq_some.mp howner)
          exact hunchanged ((innermost?_cons_of_ne hne _).symm.trans hframe)
      | settle claimed entry =>
          have hne : claimed.key ≠ frame.claimed.key := by
            intro hkey
            simp [Shared.owner?_eq_some, Shared.get?_settle, hkey, howner] at hafter
          rw [innermost?_cons_of_ne hne] at hframe
          exact hunchanged ((innermost?_cons_of_ne hne _).trans hframe)
      | release claimed =>
          have hne : claimed.key ≠ frame.claimed.key := by
            intro hkey
            simp [Shared.owner?_eq_some, Shared.get?_release, hkey, howner] at hafter
          rw [innermost?_cons_of_ne hne] at hframe
          exact hunchanged ((innermost?_cons_of_ne hne _).trans hframe)
      | @leave rest _ claimed hmove =>
          -- The compilation on top is settled, so the thread does not own its key any more.
          have hne : claimed.key ≠ frame.claimed.key := by
            intro hkey
            obtain ⟨held, hheld, hstage⟩ := hreach.owned thread _ howner
            rw [hstack, ← hkey, innermost?_cons_self ⟨claimed, _⟩ rest] at hheld
            exact hstage (Option.some.inj hheld ▸ rfl)
          obtain ⟨stage, hstage, hmoved⟩ := hmove.of_innermost? hframe
          refine ⟨stage, ⟨howner, ?_⟩, hmoved⟩
          rw [hstack]
          exact (innermost?_cons_of_ne hne rest).trans hstage
    · rw [hstep.frames_of_ne hme] at hframe
      exact ⟨frame.stage, ⟨howner, hframe⟩, .inl rfl⟩
  · left
    rw [hnext, innermost?_cons_self ⟨⟨frame.claimed.key, _⟩, .reading⟩ _] at hframe
    exact (Option.some.inj hframe).symm

/-! ## A compilation that lost its key does not get it back -/

theorem Progress.compiles_le {me : ThreadId} {before after : Shared} {awaited : Option Key}
    {stack next : List Frame} (hprogress : Progress setting me before awaited stack next after) :
    before.compiles ≤ after.compiles := by
  cases hprogress with
  | work _ _ _ hcompiles => exact hcompiles
  | replace _ _ _ hcompiles => exact Nat.le_of_eq hcompiles.symm
  | discard => exact Nat.le.refl
  | grant _ _ _ _ _ hcompiles => exact hcompiles ▸ Nat.le_succ _
  | settle =>
      unfold Shared.settle
      split <;> exact Nat.le.refl
  | release =>
      unfold Shared.release
      split <;> exact Nat.le.refl
  | leave => exact Nat.le.refl

theorem StackMove.mem {shared : Shared} {stack next : List Frame}
    (hmove : StackMove setting shared stack next) {frame : Frame} (hmem : frame ∈ next) :
    ∃ stage, ⟨frame.claimed, stage⟩ ∈ stack := by
  cases hmove with
  | stay => exact ⟨frame.stage, hmem⟩
  | @step claimed stage _ rest _ =>
      obtain rfl | hrest := List.mem_cons.mp hmem
      · exact ⟨stage, List.mem_cons_self⟩
      · exact ⟨frame.stage, List.mem_cons_of_mem _ hrest⟩

/-- The compilations of a stack are old, or the newest one has the newest number. -/
theorem Progress.mem {me : ThreadId} {before after : Shared} {awaited : Option Key}
    {stack next : List Frame} (hprogress : Progress setting me before awaited stack next after)
    {frame : Frame} (hmem : frame ∈ next) :
    (∃ stage, ⟨frame.claimed, stage⟩ ∈ stack) ∨ frame.claimed.run = after.compiles := by
  cases hprogress with
  | work hmove => exact .inl (hmove.mem hmem)
  | replace => cases hmem
  | discard => cases hmem
  | grant key _ _ _ _ hcompiles =>
      obtain rfl | hrest := List.mem_cons.mp hmem
      · exact .inr hcompiles.symm
      · exact .inl ⟨frame.stage, hrest⟩
  | settle claimed entry =>
      obtain rfl | hrest := List.mem_cons.mp hmem
      · exact .inl ⟨_, List.mem_cons_self⟩
      · exact .inl ⟨frame.stage, List.mem_cons_of_mem _ hrest⟩
  | release claimed =>
      obtain rfl | hrest := List.mem_cons.mp hmem
      · exact .inl ⟨_, List.mem_cons_self⟩
      · exact .inl ⟨frame.stage, List.mem_cons_of_mem _ hrest⟩
  | leave claimed hmove =>
      obtain ⟨stage, hrest⟩ := hmove.mem hmem
      exact .inl ⟨stage, List.mem_cons_of_mem _ hrest⟩

/-- No compilation has a number that was not given yet. -/
theorem Reachable.numbered {world : World} (hreach : Reachable setting world) {thread : ThreadId}
    {frame : Frame} (hmem : frame ∈ (world.threads thread).frames) :
    frame.claimed.run ≤ world.shared.compiles := by
  refine hreach.invariant (fun world => ∀ thread, ∀ frame ∈
    (world.threads thread).frames, frame.claimed.run ≤ world.shared.compiles) ?_ ?_ thread frame
      hmem
  · intro thread frame hmem
    cases hmem
  · intro before after me events hbefore hnumbered hstep thread frame hmem
    have hprogress := hbefore.progress hstep
    by_cases hme : thread = me
    · subst hme
      obtain ⟨stage, hold⟩ | hnew := hprogress.mem hmem
      · exact Nat.le_trans (hnumbered thread ⟨frame.claimed, stage⟩ hold) hprogress.compiles_le
      · exact Nat.le_of_eq hnew
    · rw [hstep.frames_of_ne hme] at hmem
      exact Nat.le_trans (hnumbered thread frame hmem) hprogress.compiles_le

/-- A compilation that was numbered and does not hold its key. -/
def World.Lost (world : World) (me : ThreadId) (claimed : Claimed) : Prop :=
  claimed.run ≤ world.shared.compiles ∧ ∀ stage, ¬ world.Holds me ⟨claimed, stage⟩

theorem Reachable.lost_step {world next : World} {me thread : ThreadId} {events : List Event}
    {claimed : Claimed} (hreach : Reachable setting world)
    (hstep : Step setting world me events next) (hlost : world.Lost thread claimed) :
    next.Lost thread claimed := by
  obtain ⟨hnumber, hlost⟩ := hlost
  refine ⟨Nat.le_trans hnumber (hreach.progress hstep).compiles_le, ?_⟩
  intro stage hholds
  obtain hnew | ⟨before, hbefore, _⟩ := hreach.holds_step hstep hholds
  · have hrun := congrArg (fun frame => frame.claimed.run) hnew
    simp only at hrun
    omega
  · exact hlost before hbefore

theorem Run.lost {start world : World} {seen : List (ThreadId × Event)} {thread : ThreadId}
    {claimed : Claimed} (hrun : Run setting start seen world) (hreach : Reachable setting start)
    (hlost : start.Lost thread claimed) : world.Lost thread claimed :=
  (hrun.preserves (fun world => Reachable setting world ∧ world.Lost thread claimed)
    (fun hbefore hstep => ⟨hbefore.1.step hstep, hbefore.1.lost_step hstep hbefore.2⟩)
    ⟨hreach, hlost⟩).2

end KernelFront.Cache
