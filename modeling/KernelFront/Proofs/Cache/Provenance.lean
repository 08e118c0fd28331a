import KernelFront.Proofs.Cache.Advances
import KernelFront.Proofs.Inference.Outcomes

/-! # Entries come from registered functions

Whatever a thread compiles, it compiles from a function that was registered under the name of the
key, and so does every outcome that it stores or hands out. This also holds of the compilations that
lost their slot.
-/

namespace KernelFront.Cache

variable {setting : Inference.Setting} {seen later : List (ThreadId × Event)}

/-- A thread began to register this function, whose name this is. -/
def Registered (seen : List (ThreadId × Event)) (name : String) (source : FunctionDef) : Prop :=
  source.name = name ∧ ∃ thread, (thread, Event.begun (.register source)) ∈ seen

/-- A function that was registered under the name of the key compiles to this, for some answers of
its surroundings. -/
def Made (setting : Inference.Setting) (seen : List (ThreadId × Event)) (key : Key)
    (compiled : Compiled) : Prop :=
  ∃ source, Registered seen key.name source ∧
    (compilation setting source key).Yields (.ok compiled)

/-- This is left to do of the compilation of a key from a function that was registered. -/
def Remains (setting : Inference.Setting) (seen : List (ThreadId × Event)) (key : Key)
    (passes : Passes) : Prop :=
  ∃ source, Registered seen key.name source ∧ (compilation setting source key).Leads passes

theorem Registered.mono {name : String} {source : FunctionDef} (hsub : seen ⊆ later)
    (hregistered : Registered seen name source) : Registered later name source := by
  obtain ⟨hname, thread, hmem⟩ := hregistered
  exact ⟨hname, thread, hsub hmem⟩

theorem Made.mono {key : Key} {compiled : Compiled} (hsub : seen ⊆ later)
    (hmade : Made setting seen key compiled) : Made setting later key compiled := by
  obtain ⟨source, hsource, hyields⟩ := hmade
  exact ⟨source, hsource.mono hsub, hyields⟩

/-- What is compiled for the types of a key takes arguments of these types, as many as the function
has parameters. -/
theorem args_of_compilation {source : FunctionDef} {key : Key} {compiled : Compiled}
    (hyields : (compilation setting source key).Yields (.ok compiled)) :
    compiled.signature.args = key.args ∧ source.args.length = key.args.length := by
  have hcompile : Pass.Succeeds (source.compile setting ⟨key.args, none⟩) compiled := hyields
  simp only [FunctionDef.compile, Pass.succeeds_bind, Pass.succeeds_pure] at hcompile
  obtain ⟨_, _, inferred, hinfer, _, _, _, _, _, _, _, _, rfl⟩ := hcompile
  obtain ⟨hlength, _, _, _, _, _, _, rfl⟩ := Inference.exists_inferFunction hinfer
  exact ⟨rfl, hlength⟩

/-! ## What a thread has in progress -/

section Sourced

variable (setting) (seen)

/-- A successful outcome comes from a registered function. -/
def Entry.Sourced (key : Key) (entry : Entry) : Prop :=
  ∀ artifact, entry = .ok artifact → Made setting seen key artifact.compiled

/-- What an activity is about comes from registered functions. -/
def Activity.Sourced : Activity → Prop
  | .replacing func => Registered seen func.name func
  | .running (some claimed) passes => Remains setting seen claimed.key passes
  | .settling claimed entry | .releasing claimed (some entry) | .notifying claimed (some entry) =>
      Entry.Sourced setting seen claimed.key entry
  | _ => True

/-- A suspended compilation is one of a registered function. -/
def Caller.Sourced (caller : Caller) : Prop :=
  ∀ claimed, caller.claimed = some claimed →
    ∀ answer, Remains setting seen claimed.key (caller.next answer)

/-- All that a thread has in progress comes from registered functions. -/
def Thread.Sourced : Thread → Prop
  | .idle => True
  | .active activity callers =>
      activity.Sourced setting seen ∧ ∀ caller ∈ callers, caller.Sourced setting seen

/-- The sources are the registered functions, and the entries come from such functions. -/
structure Shared.Sourced (shared : Shared) : Prop where
  sources : ∀ {name source}, shared.sources.get? name = some source → Registered seen name source
  done : ∀ {key entry}, shared.slots.get? key = some (.done entry) →
    Entry.Sourced setting seen key entry

/-- Everything in a world comes from functions that were registered. -/
structure World.Sourced (world : World) : Prop where
  shared : world.shared.Sourced setting seen
  threads : ∀ thread, (world.threads thread).Sourced setting seen

end Sourced

theorem Remains.mono {key : Key} {passes : Passes} (hsub : seen ⊆ later)
    (hremains : Remains setting seen key passes) : Remains setting later key passes := by
  obtain ⟨source, hsource, hleads⟩ := hremains
  exact ⟨source, hsource.mono hsub, hleads⟩

theorem Entry.Sourced.mono {key : Key} {entry : Entry} (hsub : seen ⊆ later)
    (hentry : entry.Sourced setting seen key) : entry.Sourced setting later key :=
  fun artifact hok => (hentry artifact hok).mono hsub

theorem Activity.Sourced.mono {activity : Activity} (hsub : seen ⊆ later)
    (hactivity : activity.Sourced setting seen) : activity.Sourced setting later := by
  unfold Activity.Sourced at hactivity ⊢
  split at hactivity
  · exact hactivity.mono hsub
  · exact hactivity.mono hsub
  · exact hactivity.mono hsub
  · exact hactivity.mono hsub
  · exact hactivity.mono hsub
  · trivial

theorem Thread.Sourced.mono {thread : Thread} (hsub : seen ⊆ later)
    (hthread : thread.Sourced setting seen) : thread.Sourced setting later := by
  cases thread with
  | idle => trivial
  | active activity callers =>
      obtain ⟨hactivity, hcallers⟩ := hthread
      refine ⟨hactivity.mono hsub, fun caller hmem claimed hclaimed answer => ?_⟩
      exact (hcallers caller hmem claimed hclaimed answer).mono hsub

theorem World.Sourced.mono {world : World} (hsub : seen ⊆ later)
    (hworld : world.Sourced setting seen) : world.Sourced setting later := by
  refine ⟨⟨fun hsource => ?_, fun hdone => ?_⟩, fun thread => (hworld.threads thread).mono hsub⟩
  · exact (hworld.shared.sources hsource).mono hsub
  · exact (hworld.shared.done hdone).mono hsub

theorem Thread.Sourced.wake {thread : Thread} (hthread : thread.Sourced setting seen) :
    thread.wake.Sourced setting seen := by
  unfold Thread.wake
  split
  · exact hthread
  · exact hthread

/-! ## Every step keeps to registered functions -/

theorem sourced_resume {caller : Caller} {callers : List Caller} (answer : Resolution)
    (hcallers : ∀ other ∈ caller :: callers, other.Sourced setting seen) :
    (Thread.active (.running caller.claimed (caller.next answer)) callers).Sourced setting
      seen := by
  obtain ⟨hcaller, hcallers⟩ := List.forall_mem_cons.mp hcallers
  refine ⟨?_, hcallers⟩
  cases hclaimed : caller.claimed with
  | none => trivial
  | some claimed => exact hcaller claimed hclaimed answer

theorem sourced_deliver {key : Key} {outcome : Option Entry} {callers : List Caller}
    (hcallers : ∀ caller ∈ callers, caller.Sourced setting seen) :
    (deliver key outcome callers).1.Sourced setting seen := by
  cases callers with
  | nil => trivial
  | cons caller callers => exact sourced_resume _ hcallers

theorem sourced_deliverUnknown {key : Key} {callers : List Caller}
    (hcallers : ∀ caller ∈ callers, caller.Sourced setting seen) :
    (deliverUnknown key callers).1.Sourced setting seen := by
  cases callers with
  | nil => trivial
  | cons caller callers => exact sourced_resume _ hcallers

theorem sourced_advancePasses {claimed : Option Claimed} {passes : Passes} {callers : List Caller}
    (hthread : (Thread.active (.running claimed passes) callers).Sourced setting seen) :
    (advancePasses claimed callers passes).1.Sourced setting seen := by
  obtain ⟨hactivity, hcallers⟩ := hthread
  cases claimed with
  | none =>
      cases passes with
      | report message next => exact ⟨trivial, hcallers⟩
      | ask callee args next =>
          exact ⟨trivial, List.forall_mem_cons.mpr ⟨nofun, hcallers⟩⟩
      | done result => cases result <;> trivial
  | some claimed =>
      obtain ⟨source, hsource, hleads⟩ := hactivity
      cases passes with
      | report message next => exact ⟨⟨source, hsource, hleads.report⟩, hcallers⟩
      | ask callee args next =>
          refine ⟨trivial, List.forall_mem_cons.mpr ⟨?_, hcallers⟩⟩
          rintro _ ⟨⟩ answer
          exact ⟨source, hsource, hleads.ask answer⟩
      | done result =>
          refine ⟨fun artifact hok => ?_, hcallers⟩
          cases result with
          | error e => cases hok
          | ok compiled =>
              cases hok
              exact ⟨source, hsource, hleads.yields (.done _)⟩

/-! ### What is stored -/

namespace Shared.Sourced

variable {shared : Shared}

theorem replaceSource {func : FunctionDef} (hshared : shared.Sourced setting seen)
    (hfunc : Registered seen func.name func) :
    (shared.replaceSource func).Sourced setting seen := by
  refine ⟨fun hsource => ?_, hshared.done⟩
  simp only [Shared.replaceSource, Table.get?_insert] at hsource
  split at hsource
  next hname =>
    cases hsource
    exact hname ▸ hfunc
  next => exact hshared.sources hsource

theorem discard (hshared : shared.Sourced setting seen) (name : String) :
    (shared.discard name).Sourced setting seen := by
  refine ⟨hshared.sources, fun hdone => ?_⟩
  rw [Shared.get?_discard] at hdone
  split at hdone
  · cases hdone
  · exact hshared.done hdone

theorem grant (hshared : shared.Sourced setting seen) (me : ThreadId) (key : Key) :
    Sourced setting seen { (shared.stopWaiting me).countRun with
      slots := shared.slots.insert key (.inFlight me) } := by
  refine ⟨hshared.sources, fun hdone => ?_⟩
  rw [Table.get?_insert] at hdone
  split at hdone
  · cases hdone
  · exact hshared.done hdone

theorem settle {key : Key} {entry : Entry} (hshared : shared.Sourced setting seen)
    (hentry : entry.Sourced setting seen key) (me : ThreadId) :
    (shared.settle me key entry).Sourced setting seen := by
  refine ⟨fun hsource => ?_, fun hdone => ?_⟩
  · rw [Shared.sources_settle] at hsource
    exact hshared.sources hsource
  · rw [Shared.get?_settle] at hdone
    split at hdone
    next hkey =>
      cases hdone
      exact hkey.1 ▸ hentry
    next => exact hshared.done hdone

theorem release (hshared : shared.Sourced setting seen) (me : ThreadId) (key : Key) :
    (shared.release me key).Sourced setting seen := by
  refine ⟨fun hsource => ?_, fun hdone => ?_⟩
  · rw [Shared.sources_release] at hsource
    exact hshared.sources hsource
  · rw [Shared.get?_release] at hdone
    split at hdone
    · cases hdone
    · exact hshared.done hdone

end Shared.Sourced

/-! ### Steps and runs -/

theorem sourced_advance {me : ThreadId} {shared : Shared} {callers : List Caller}
    {activity : Activity} {turn : Turn} (hshared : shared.Sourced setting seen)
    (hthread : (Thread.active activity callers).Sourced setting seen)
    (hmoves : advance setting me shared callers activity = some turn) :
    turn.shared.Sourced setting seen ∧ turn.thread.Sourced setting seen := by
  obtain ⟨hactivity, hcallers⟩ := hthread
  cases activity with
  | replacing func =>
      simp only [advance, Option.some.injEq] at hmoves
      subst turn
      refine ⟨hshared.replaceSource hactivity, ?_⟩
      split
      · exact ⟨trivial, hcallers⟩
      · trivial
  | discarding name =>
      cases hmoves
      exact ⟨hshared.discard name, trivial, hcallers⟩
  | announcing name discarded =>
      cases hmoves
      exact ⟨hshared, trivial, hcallers⟩
  | recording name discarded =>
      simp only [advance] at hmoves
      split at hmoves <;> cases hmoves
      · exact ⟨hshared, trivial⟩
      · exact ⟨⟨hshared.sources, hshared.done⟩, trivial⟩
  | seeking key =>
      simp only [advance] at hmoves
      split at hmoves <;> cases hmoves
      · exact ⟨hshared, trivial, hcallers⟩
      · exact ⟨hshared, sourced_deliverUnknown hcallers⟩
  | claiming key =>
      cases lookTurn_of_advance hmoves with
      | grant => exact ⟨hshared.grant me key, trivial, hcallers⟩
      | ready => exact ⟨⟨hshared.sources, hshared.done⟩, sourced_deliver hcallers⟩
      | cycle => exact ⟨⟨hshared.sources, hshared.done⟩, sourced_deliver hcallers⟩
      | wait => exact ⟨⟨hshared.sources, hshared.done⟩, trivial, hcallers⟩
  | asleep key => cases hmoves
  | reading claimed =>
      simp only [advance, Option.some.injEq] at hmoves
      subst turn
      refine ⟨hshared, ?_, hcallers⟩
      cases hsource : shared.sources.get? claimed.key.name with
      | none =>
          intro artifact hok
          cases hok
      | some source => exact ⟨source, hshared.sources hsource, .refl⟩
  | opening name signature =>
      simp only [advance] at hmoves
      split at hmoves <;> cases hmoves
      · exact ⟨hshared, trivial, hcallers⟩
      · exact ⟨hshared, trivial⟩
  | counting source signature =>
      cases hmoves
      exact ⟨⟨hshared.sources, hshared.done⟩, trivial, hcallers⟩
  | running claimed passes =>
      cases hmoves
      exact ⟨hshared, sourced_advancePasses ⟨hactivity, hcallers⟩⟩
  | settling claimed entry =>
      cases hmoves
      exact ⟨hshared.settle hactivity me, hactivity, hcallers⟩
  | releasing claimed outcome =>
      cases hmoves
      refine ⟨hshared.release me claimed.key, ?_, hcallers⟩
      cases outcome with
      | none => trivial
      | some entry => exact hactivity
  | notifying claimed outcome =>
      cases outcome with
      | none =>
          cases hmoves
          exact ⟨hshared, trivial, hcallers⟩
      | some entry =>
          cases hmoves
          exact ⟨hshared, sourced_deliver hcallers⟩
  | unwinding =>
      rcases callers with _ | ⟨⟨_ | claimed, next⟩, callers⟩ <;> cases hmoves
      · exact ⟨hshared, trivial⟩
      · exact ⟨hshared, trivial, (List.forall_mem_cons.mp hcallers).2⟩
      · exact ⟨hshared, trivial, (List.forall_mem_cons.mp hcallers).2⟩

theorem World.Sourced.initial : World.Sourced setting seen .initial :=
  ⟨⟨nofun, nofun⟩, fun _ => trivial⟩

theorem World.Sourced.setThread {world : World} {me : ThreadId} {thread : Thread}
    (hworld : world.Sourced setting seen) (hthread : thread.Sourced setting seen) :
    (world.setThread me thread).Sourced setting seen := by
  refine ⟨hworld.shared, fun other => ?_⟩
  by_cases hme : other = me
  · simpa [World.setThread, hme] using hthread
  · simpa [World.setThread, hme] using hworld.threads other

theorem World.Sourced.afterTurn {world : World} {me : ThreadId} {turn : Turn}
    (hworld : world.Sourced setting seen) (hshared : turn.shared.Sourced setting seen)
    (hthread : turn.thread.Sourced setting seen) :
    (world.afterTurn me turn).Sourced setting seen := by
  refine ⟨by rwa [World.afterTurn_shared], fun other => ?_⟩
  rw [World.afterTurn_threads]
  have hother : (if other = me then turn.thread else world.threads other).Sourced setting seen := by
    split
    · exact hthread
    · exact hworld.threads other
  dsimp only
  split
  · exact hother.wake
  · exact hother

theorem Thread.Sourced.panic {thread next : Thread} (hthread : thread.Sourced setting seen)
    (hfails : thread.panic? = some next) : next.Sourced setting seen := by
  unfold Thread.panic? at hfails
  split at hfails <;> cases hfails
  · exact ⟨trivial, hthread.2⟩
  · exact ⟨trivial, hthread.2⟩

theorem World.Sourced.step {world next : World} {me : ThreadId} {events : List Event}
    (hworld : world.Sourced setting seen) (hstep : Step setting world me events next) :
    next.Sourced setting (seen ++ events.map fun event => (me, event)) := by
  have hsub : seen ⊆ seen ++ events.map fun event => (me, event) := List.subset_append_left _ _
  cases hstep with
  | «begin» request rest =>
      refine (hworld.mono hsub).setThread ?_
      cases request with
      | register func => exact ⟨⟨rfl, me, by simp⟩, nofun⟩
      | compile key => exact ⟨trivial, nofun⟩
      | compileDeclared name signature => exact ⟨trivial, nofun⟩
  | advance busy moves =>
      obtain ⟨hshared, hthread⟩ := sourced_advance hworld.shared (busy ▸ hworld.threads me) moves
      exact (hworld.afterTurn hshared hthread).mono hsub
  | wake waits =>
      have hthread := hworld.threads me
      rw [waits] at hthread
      exact (hworld.setThread hthread.wake).mono hsub
  | panic fails => exact (hworld.setThread ((hworld.threads me).panic fails)).mono hsub

/-- All that is compiled, stored or handed out comes from functions that were registered. -/
theorem Run.sourced {world : World} (hrun : Run setting .initial seen world) :
    world.Sourced setting seen := by
  induction hrun with
  | nil => exact .initial
  | step past next ih => exact ih.step next

end KernelFront.Cache
