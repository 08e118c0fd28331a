import Mathlib.Tactic.ByContra
import KernelFront.Proofs.Cache.Ownership
import KernelFront.Proofs.Cache.Schedule

/-! # Entries come from the registered source

A redefinition replaces the source first and discards the slots of the old one in a later step.
Between the two steps of a redefinition a slot may hold the outcome of the old source. At all other
times it cannot: a compilation that lost its slot never gets it back, and the slot of a compilation
that still owns its key was claimed after the last redefinition.
-/

namespace KernelFront.Cache

variable {setting : Inference.Setting}

/-- The thread replaced the source of a function, whose old slots it did not discard yet. -/
def World.Redefining (world : World) (me : ThreadId) (name : String) : Prop :=
  ∃ callers, world.threads me = .active (.discarding name) callers

/-- The entry is what a compilation of the key from the source comes to, for some answers of its
surroundings. -/
def Produces (setting : Inference.Setting) (source : FunctionDef) (key : Key) (entry : Entry) :
    Prop :=
  ∃ run result, (compilation setting source key).Yields result ∧
    entry = Claimed.entry ⟨key, run⟩ result

/-- What a compilation is about to do follows from the source. -/
def Stage.From (setting : Inference.Setting) (source : FunctionDef) (claimed : Claimed) :
    Stage → Prop
  | .running passes => (compilation setting source claimed.key).Leads passes
  | .suspended next => ∀ answer, (compilation setting source claimed.key).Leads (next answer)
  | .settling entry => ∃ result, (compilation setting source claimed.key).Yields result ∧
      entry = claimed.entry result
  | .reading | .settled | .failed => True

/-- All entries of a name, and all that will become one, come from its source. -/
structure World.Current (setting : Inference.Setting) (world : World) (name : String) : Prop where
  done : ∀ {key : Key} {entry : Entry}, key.name = name →
    world.shared.slots.get? key = some (.done entry) →
      ∃ source, world.shared.sources.get? name = some source ∧ Produces setting source key entry
  held : ∀ {thread : ThreadId} {frame : Frame}, frame.claimed.key.name = name →
    world.Holds thread frame →
      ∃ source, world.shared.sources.get? name = some source ∧
        frame.stage.From setting source frame.claimed

theorem StageMove.from {shared : Shared} {claimed : Claimed} {source : FunctionDef}
    {stage next : Stage} (hmove : StageMove setting shared claimed stage next)
    (hsource : shared.sources.get? claimed.key.name = some source)
    (hfrom : stage.From setting source claimed) : next.From setting source claimed := by
  cases hmove with
  | read hread =>
      cases Option.some.inj (hread.symm.trans hsource)
      exact .refl
  | missing hmissing => exact nomatch hmissing.symm.trans hsource
  | report => exact hfrom.report
  | ask => exact fun answer => hfrom.ask answer
  | resume answer => exact hfrom answer
  | finish => exact ⟨_, hfrom.yields (.done _), rfl⟩
  | panic => trivial

/-- An entry is old, or the innermost compilation of the thread put it there and owned the key. -/
theorem Progress.done {me : ThreadId} {before after : Shared} {awaited : Option Key}
    {stack next : List Frame} (hprogress : Progress setting me before awaited stack next after)
    {key : Key} {entry : Entry} (hdone : after.slots.get? key = some (.done entry)) :
    before.slots.get? key = some (.done entry) ∨
      ∃ claimed rest, claimed.key = key ∧ stack = ⟨claimed, .settling entry⟩ :: rest ∧
        before.owner? key = some me := by
  cases hprogress with
  | work _ hslots _ _ => exact .inl (by rwa [hslots] at hdone)
  | replace _ hslots _ _ => exact .inl (by rwa [hslots] at hdone)
  | discard name =>
      rw [Shared.get?_discard] at hdone
      split at hdone
      · cases hdone
      · exact .inl hdone
  | grant granted _ _ hslots _ _ =>
      rw [hslots, Table.get?_insert] at hdone
      split at hdone
      · cases hdone
      · exact .inl hdone
  | settle claimed settled =>
      rw [Shared.get?_settle] at hdone
      split at hdone
      · rename_i howner
        cases hdone
        exact .inr ⟨claimed, _, howner.1.symm, rfl, howner.1 ▸ howner.2⟩
      · exact .inl hdone
  | release claimed =>
      rw [Shared.get?_release] at hdone
      split at hdone
      · cases hdone
      · exact .inl hdone
  | leave => exact .inl hdone

/-- The second step of a redefinition discards the slots. -/
theorem Step.discards {world next : World} {me : ThreadId} {events : List Event} {name : String}
    (hstep : Step setting world me events next) (hredefining : world.Redefining me name) :
    next.shared = world.shared.discard name := by
  obtain ⟨callers, hthread⟩ := hredefining
  cases hstep with
  | «begin» request rest => exact nomatch hthread.symm.trans rest
  | advance busy moves =>
      cases hthread.symm.trans busy
      cases moves
      exact World.afterTurn_shared world me _
  | wake waits => exact nomatch hthread.symm.trans waits
  | panic fails => simp [hthread, Thread.panic?] at fails

/-- Other threads leave a redefinition between its two steps. -/
theorem Step.redefining_of_ne {world next : World} {me thread : ThreadId} {events : List Event}
    {name : String} (hstep : Step setting world me events next) (hne : thread ≠ me)
    (hredefining : world.Redefining thread name) : next.Redefining thread name := by
  obtain ⟨callers, hthread⟩ := hredefining
  refine ⟨callers, ?_⟩
  cases hstep with
  | «begin» request rest => simpa [World.setThread, hne] using hthread
  | advance busy moves =>
      rw [World.afterTurn_threads]
      simp only [hne, if_false, hthread]
      split <;> rfl
  | wake waits => simpa [World.setThread, hne] using hthread
  | panic fails => simpa [World.setThread, hne] using hthread

theorem advance_sources {me : ThreadId} {shared : Shared} {callers : List Caller}
    {activity : Activity} {turn : Turn}
    (hmoves : advance setting me shared callers activity = some turn) :
    turn.shared.sources = shared.sources ∨
      ∃ func, activity = .replacing func ∧
        turn.shared.sources = shared.sources.insert func.name func ∧
        (shared.isRegistered func.name →
          turn.thread = .active (.discarding func.name) callers ∧ turn.notifies = false) := by
  cases activity with
  | replacing func =>
      simp only [advance, Option.some.injEq] at hmoves
      subst turn
      refine .inr ⟨func, rfl, rfl, fun hregistered => ⟨?_, rfl⟩⟩
      simp only [hregistered, if_true]
  | recording name discarded =>
      simp only [advance] at hmoves
      split at hmoves <;> cases hmoves <;> exact .inl rfl
  | seeking key =>
      simp only [advance] at hmoves
      split at hmoves <;> cases hmoves <;> exact .inl rfl
  | claiming key => cases lookTurn_of_advance hmoves <;> exact .inl rfl
  | opening name signature =>
      simp only [advance] at hmoves
      split at hmoves <;> cases hmoves <;> exact .inl rfl
  | settling claimed entry =>
      cases hmoves
      exact .inl (Shared.sources_settle _ _ _ _)
  | releasing claimed outcome =>
      cases hmoves
      exact .inl (Shared.sources_release _ _ _)
  | unwinding =>
      rcases callers with _ | ⟨⟨_ | _, _⟩, _⟩ <;> cases hmoves <;> exact .inl rfl
  | asleep _ => cases hmoves
  | discarding _ | announcing _ _ | reading _ | counting _ _ | running _ _ | notifying _ _ =>
      cases hmoves
      exact .inl rfl

/-- The source of a registered function changes only when a redefinition begins. -/
theorem Step.sources {world next : World} {me : ThreadId} {events : List Event}
    (hstep : Step setting world me events next) (name : String) :
    next.shared.sources.get? name = world.shared.sources.get? name ∨
      ¬ world.shared.isRegistered name ∨ next.Redefining me name := by
  cases hstep with
  | «begin» request rest => exact .inl rfl
  | @advance activity callers turn busy moves =>
      rw [World.afterTurn_shared]
      obtain hsame | ⟨func, _, hsources, hregistered⟩ := advance_sources moves
      · exact .inl (by rw [hsame])
      · rw [hsources, Table.get?_insert]
        by_cases hname : name = func.name
        · subst hname
          by_cases hknown : world.shared.isRegistered func.name
          · obtain ⟨hthread, hquiet⟩ := hregistered hknown
            refine .inr (.inr ⟨callers, ?_⟩)
            rw [World.afterTurn_threads]
            simp only [if_true, hthread, hquiet]
            rfl
          · exact .inr (.inl hknown)
        · exact .inl (if_neg hname)
  | wake waits => exact .inl rfl
  | panic fails => exact .inl rfl

/-- Discarding the slots of a name leaves nothing that could be out of date. -/
theorem World.Current.of_discard {world : World} {shared : Shared} {name : String}
    (hdiscard : world.shared = shared.discard name) : world.Current setting name := by
  constructor
  · intro key entry hname hdone
    rw [hdiscard, Shared.get?_discard, if_pos hname] at hdone
    cases hdone
  · intro thread frame hname hholds
    have hslot := Shared.owner?_eq_some.mp hholds.1
    rw [hdiscard, Shared.get?_discard, if_pos hname] at hslot
    cases hslot

/-- A name that was not registered before a step has no slots after it. -/
theorem Reachable.current_of_unregistered {world next : World} {me : ThreadId}
    {events : List Event} {name : String} (hreach : Reachable setting world)
    (hstep : Step setting world me events next) (hunknown : ¬ world.shared.isRegistered name) :
    next.Current setting name := by
  have hempty : ∀ key : Key, key.name = name → next.shared.slots.get? key = none := by
    rintro key rfl
    by_contra hslot
    obtain hold | hawaited := (hreach.progress hstep).get? hslot
    · exact hunknown (hreach.registered.1 key hold)
    · exact hunknown (hreach.registered.2 me key hawaited)
  constructor
  · intro key entry hname hdone
    exact nomatch (hempty key hname).symm.trans hdone
  · intro thread frame hname hholds
    exact nomatch (hempty _ hname).symm.trans (Shared.owner?_eq_some.mp hholds.1)

/-- While the source of a name stays as it is, entries keep coming from it. -/
theorem Reachable.current_step {world next : World} {me : ThreadId} {events : List Event}
    {name : String} (hreach : Reachable setting world) (hstep : Step setting world me events next)
    (hsame : next.shared.sources.get? name = world.shared.sources.get? name)
    (hcurrent : world.Current setting name) : next.Current setting name := by
  constructor
  · intro key entry hname hdone
    rw [hsame]
    obtain hold | ⟨claimed, rest, rfl, hstack, howner⟩ := (hreach.progress hstep).done hdone
    · exact hcurrent.done hname hold
    · have hholds : world.Holds me ⟨claimed, .settling entry⟩ :=
        ⟨howner, by rw [hstack]; exact innermost?_cons_self ⟨claimed, _⟩ rest⟩
      obtain ⟨source, hsource, result, hyields, hentry⟩ := hcurrent.held hname hholds
      exact ⟨source, hsource, claimed.run, result, hyields, hentry⟩
  · intro thread frame hname hholds
    rw [hsame]
    obtain hnew | ⟨stage, hbefore, hmoved⟩ := hreach.holds_step hstep hholds
    · have hslot : next.shared.slots.get? frame.claimed.key ≠ none := by
        rw [Shared.owner?_eq_some.mp hholds.1]
        exact nofun
      have hregistered := (hreach.step hstep).registered.1 _ hslot
      rw [Shared.isRegistered, Table.contains, hname, hsame] at hregistered
      obtain ⟨source, hsource⟩ := Option.isSome_iff_exists.mp hregistered
      exact ⟨source, hsource, by rw [hnew]; trivial⟩
    · have hnamed : (Frame.mk frame.claimed stage).claimed.key.name = name := hname
      obtain ⟨source, hsource, hfrom⟩ := hcurrent.held hnamed hbefore
      refine ⟨source, hsource, ?_⟩
      obtain rfl | hmove := hmoved
      · exact hfrom
      · exact hmove.from (hname ▸ hsource) hfrom

/-- Every name is being redefined or up to date. -/
theorem Reachable.current {world : World} (hreach : Reachable setting world) (name : String) :
    (∃ thread, world.Redefining thread name) ∨ world.Current setting name := by
  refine hreach.invariant (fun world =>
    (∃ thread, world.Redefining thread name) ∨ world.Current setting name) (.inr ⟨?_, ?_⟩) ?_
  · intro key entry _ hdone
    cases hdone
  · intro thread frame _ hholds
    cases hholds.1
  · intro before after me events hbefore hcurrent hstep
    obtain ⟨thread, hredefining⟩ | hcurrent := hcurrent
    · by_cases hme : thread = me
      · subst hme
        exact .inr (.of_discard (hstep.discards hredefining))
      · exact .inl ⟨thread, hstep.redefining_of_ne hme hredefining⟩
    · obtain hsame | hunknown | hredefining := hstep.sources name
      · exact .inr (hbefore.current_step hstep hsame hcurrent)
      · exact .inr (hbefore.current_of_unregistered hstep hunknown)
      · exact .inl ⟨me, hredefining⟩

/-! ## A compilation that lost its slot does not store its result -/

/-- A compilation loses its key when the slots of its name are discarded. -/
theorem Reachable.lost_of_discard {world next : World} {me thread : ThreadId}
    {events : List Event} {frame : Frame} (hreach : Reachable setting world)
    (hstep : Step setting world me events next)
    (hredefining : world.Redefining me frame.claimed.key.name)
    (hmem : frame ∈ (world.threads thread).frames) : next.Lost thread frame.claimed := by
  refine ⟨Nat.le_trans (hreach.numbered hmem) (hreach.progress hstep).compiles_le, ?_⟩
  intro stage hholds
  have hslot := Shared.owner?_eq_some.mp hholds.1
  rw [hstep.discards hredefining, Shared.get?_discard, if_pos rfl] at hslot
  cases hslot

/-- A compilation that lost its key has no effect on the slots when it offers its result. -/
theorem Step.slots_of_lost {world next : World} {me : ThreadId} {events : List Event}
    {claimed : Claimed} {entry : Entry} {callers : List Caller}
    (hstep : Step setting world me events next) (hlost : world.Lost me claimed)
    (hsettling : world.threads me = .active (.settling claimed entry) callers) :
    next.shared.slots = world.shared.slots := by
  have howner : world.shared.owner? claimed.key ≠ some me := by
    intro howner
    refine hlost.2 (.settling entry) ⟨howner, ?_⟩
    rw [hsettling]
    exact innermost?_cons_self ⟨claimed, _⟩ _
  cases hstep with
  | «begin» request rest => exact nomatch hsettling.symm.trans rest
  | advance busy moves =>
      cases hsettling.symm.trans busy
      cases moves
      rw [World.afterTurn_shared]
      simp [Shared.settle, howner]
  | wake waits => exact nomatch hsettling.symm.trans waits
  | panic fails => simp [hsettling, Thread.panic?] at fails

/-- In every reachable world, a finished slot of a name that no thread is redefining holds the
outcome of compiling the source registered under that name. And once the slots of a name were
discarded, a compilation of that name that had begun before never changes a slot when it offers its
result, whoever claimed its key again meanwhile. -/
theorem no_stale_specialization :
    (∀ world, Reachable setting world →
      ∀ name, (∀ thread, ¬ world.Redefining thread name) →
        ∀ key entry, key.name = name → world.shared.slots.get? key = some (.done entry) →
          ∃ source, world.shared.sources.get? name = some source ∧
            Produces setting source key entry) ∧
    ∀ world redefiner discarding discarded me frame seen late entry callers storing after,
      Reachable setting world →
      world.Redefining redefiner frame.claimed.key.name →
      frame ∈ (world.threads me).frames →
      Step setting world redefiner discarding discarded →
      Run setting discarded seen late →
      late.threads me = .active (.settling frame.claimed entry) callers →
      Step setting late me storing after →
      after.shared.slots = late.shared.slots := by
  constructor
  · intro world hreach name hquiet key entry hname hdone
    obtain ⟨thread, hredefining⟩ | hcurrent := hreach.current name
    · exact absurd hredefining (hquiet thread)
    · exact hcurrent.done hname hdone
  · intro world redefiner discarding discarded me frame seen late entry callers storing after
      hreach hredefining hmem hdiscard hrun hsettling hstore
    have hlost := hreach.lost_of_discard hdiscard hredefining hmem
    exact hstore.slots_of_lost (hrun.lost (hreach.step hdiscard) hlost) hsettling

/-- A thread is in the middle of the passes when another one replaces the source. -/
def overtaken : List (ThreadId × Option Request) :=
  [(0, some (.register staleSource)), (0, none), (0, some (.compile redefinedKey))] ++
    moves 0 5 ++ [(1, some (.register freshSource)), (1, none)]

/-- The second thread discards the slots before the first one is done with the passes. -/
def outrun : List (ThreadId × Option Request) := overtaken ++ moves 1 1 ++ moves 0 5

/-- The second thread compiles the new source after the first one is done with the old one. -/
def recompiled : List (ThreadId × Option Request) :=
  outrun ++ moves 0 3 ++ moves 1 2 ++ [(1, some (.compile redefinedKey))] ++ moves 1 13

/-- A function is redefined during its compilation. The outcome for the old source is not stored,
and the slot is filled by a compilation of the new source. -/
theorem no_stale_specialization_overtaken :
    ((World.after usualSetting outrun).threads 0).settles? = some ⟨redefinedKey, 1⟩ ∧
      (World.after usualSetting (outrun ++ moves 0 1)).shared.slots =
        (World.after usualSetting outrun).shared.slots ∧
      ∃ entry source,
        (World.after usualSetting recompiled).shared.slots.get? redefinedKey = some (.done entry) ∧
        (World.after usualSetting recompiled).shared.sources.get? "f" = some source ∧
        Produces usualSetting source redefinedKey entry := by
  obtain ⟨hsafe, hlate⟩ := @no_stale_specialization usualSetting
  have hsettles : ((World.after usualSetting outrun).threads 0).settles? =
      some ⟨redefinedKey, 1⟩ := by decide +kernel
  refine ⟨hsettles, ?_, ?_⟩
  · have hredefining : (World.after usualSetting overtaken).Redefining 1 "f" :=
      Thread.discards?_eq_some.mp (by decide +kernel)
    have hframe : ⟨redefinedKey, 1⟩ ∈
        ((World.after usualSetting overtaken).threads 0).frames.map Frame.claimed := by
      decide +kernel
    obtain ⟨frame, hmem, hclaimed⟩ := List.mem_map.mp hframe
    obtain ⟨entry, callers, hthread⟩ := Thread.settles?_eq_some.mp hsettles
    obtain ⟨discarding, hdiscard⟩ :=
      @World.after_step usualSetting overtaken 1 none (by decide +kernel)
    obtain ⟨storing, hstore⟩ := @World.after_step usualSetting outrun 0 none (by decide +kernel)
    obtain ⟨seen, hrun⟩ := World.follow?_run
      (@World.follow?_after usualSetting (overtaken ++ [(1, none)]) (moves 0 5) (by decide +kernel))
    exact hlate _ 1 _ _ 0 frame seen _ entry callers storing _ (World.after_reachable _)
      (by rwa [hclaimed]) hmem hdiscard hrun (by rwa [hclaimed]) hstore
  · have hquiet : ∀ thread, ¬ (World.after usualSetting recompiled).Redefining thread "f" := by
      intro thread hredefining
      have hdiscards := Thread.discards?_eq_some.mpr hredefining
      by_cases hfirst : thread = 0
      · subst hfirst
        exact absurd hdiscards (by decide +kernel)
      · by_cases hsecond : thread = 1
        · subst hsecond
          exact absurd hdiscards (by decide +kernel)
        · have hmoves : ∀ move ∈ recompiled, move.1 = 0 ∨ move.1 = 1 := by decide +kernel
          have hidle : (World.after usualSetting recompiled).threads thread = .idle := by
            refine World.after_idle fun move hmem hsame => ?_
            obtain hmove | hmove := hmoves move hmem
            · exact hfirst (hsame.trans hmove)
            · exact hsecond (hsame.trans hmove)
          rw [hidle] at hdiscards
          cases hdiscards
    have hstored : (((World.after usualSetting recompiled).shared.slots.get? redefinedKey).bind
        Slot.outcome?).isSome := by decide +kernel
    obtain ⟨entry, hentry⟩ := Option.isSome_iff_exists.mp hstored
    obtain ⟨slot, hslot, hentry⟩ := Option.bind_eq_some_iff.mp hentry
    rw [Slot.outcome?_eq_some.mp hentry] at hslot
    obtain ⟨source, hsource, hproduces⟩ := hsafe _ (World.after_reachable recompiled) "f" hquiet
      redefinedKey entry rfl hslot
    exact ⟨entry, source, hslot, hsource, hproduces⟩

end KernelFront.Cache
