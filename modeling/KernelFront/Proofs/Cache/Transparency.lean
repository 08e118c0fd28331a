import KernelFront.Proofs.Cache.Completion

/-! # The cache is transparent

A run that begins with registered functions and does not register any gives every request for an
acyclic key the answer that the uncached compilation gives. What was asked for before or is compiled
at the same time has no influence on it.
-/

namespace KernelFront.Cache

/-- The request that a thread serves after an event of its own. -/
def Event.pending (served : Option Request) : Event → Option Request
  | .begun request => some request
  | .replied _ | .panicked => none
  | .log _ | .claimed _ | .uncached _ => served

/-- The request that a thread serves after what was seen. -/
def pending? (me : ThreadId) (seen : List (ThreadId × Event)) : Option Request :=
  (seen.filter fun entry => entry.1 = me).foldl (fun served entry => entry.2.pending served) none

/-- Functions are registered, and nobody has asked for anything yet. -/
structure World.Loaded (setting : Inference.Setting) (world : World) : Prop where
  reachable : Reachable setting world
  idle : ∀ thread, world.threads thread = .idle
  slots : ∀ key, world.shared.slots.get? key = none

variable {setting : Inference.Setting} {sources : Table String FunctionDef}

/-! ## The history of a thread -/

theorem pending?_append_of_ne {me other : ThreadId} (hne : me ≠ other)
    (seen : List (ThreadId × Event)) (events : List Event) :
    pending? me (seen ++ events.map fun event => (other, event)) = pending? me seen := by
  have hnone :
      (events.map fun event => (other, event)).filter (fun entry => entry.1 = me) = [] := by
    simp [List.filter_eq_nil_iff, Ne.symm hne]
  rw [pending?, List.filter_append, hnone, List.append_nil, pending?]

theorem pending?_append_self (me : ThreadId) (seen : List (ThreadId × Event))
    (events : List Event) :
    pending? me (seen ++ events.map fun event => (me, event)) =
      events.foldl Event.pending (pending? me seen) := by
  have hall : (events.map fun event => (me, event)).filter (fun entry => entry.1 = me) =
      events.map fun event => (me, event) := by
    simp [List.filter_eq_self]
  rw [pending?, List.filter_append, hall, List.foldl_append, List.foldl_map, pending?]

theorem foldl_pending_of_quiet {events : List Event} (hquiet : ∀ event ∈ events, event.Quiet)
    (served : Option Request) : events.foldl Event.pending served = served := by
  induction events generalizing served with
  | nil => rfl
  | cons event events ih =>
      have hserved : event.pending served = served := by
        have hevent := hquiet event List.mem_cons_self
        cases event <;> first | rfl | cases hevent
      rw [List.foldl_cons, hserved]
      exact ih (fun other hmem => hquiet other (List.mem_cons_of_mem _ hmem)) served

/-- What was seen of a run from registered functions agrees with what the threads have in
progress, and all replies were right. -/
structure World.Recorded (setting : Inference.Setting) (sources : Table String FunctionDef)
    (seen : List (ThreadId × Event)) (world : World) : Prop where
  faithful : world.Faithful setting sources fun me => (pending? me seen).bind Request.root?
  idle : ∀ me, world.threads me = .idle ↔ pending? me seen = none
  replies : ∀ {before after me reply}, seen = before ++ (me, .replied reply) :: after →
    Answers setting sources ((pending? me before).bind Request.root?) reply

/-- A reply in an extended history is old, or it is among the new events. -/
theorem eq_append_or_of_append {seen new before after : List (ThreadId × Event)}
    {entry : ThreadId × Event} (hsplit : seen ++ new = before ++ entry :: after) :
    (∃ rest, seen = before ++ entry :: rest) ∨
      ∃ earlier, new = earlier ++ entry :: after ∧ before = seen ++ earlier := by
  obtain ⟨earlier, hbefore, hnew⟩ | ⟨rest, hseen, hrest⟩ := List.append_eq_append_iff.mp hsplit
  · exact .inr ⟨earlier, hnew, hbefore⟩
  · cases rest with
    | nil =>
        rw [List.append_nil] at hseen
        exact .inr ⟨[], by simpa using hrest.symm, by simp [hseen]⟩
    | cons head rest =>
        cases hrest
        exact .inl ⟨rest, hseen⟩

namespace World.Recorded

variable {seen : List (ThreadId × Event)} {world next : World} {me : ThreadId} {events : List Event}

/-- A step that is recorded for one thread leaves the records of the others as they are. -/
theorem step_of (hrecorded : world.Recorded setting sources seen)
    (hreach : Reachable setting world) (hstep : Step setting world me events next)
    (hfollows : Follows setting sources
      ((events.foldl Event.pending (pending? me seen)).bind Request.root?) (next.threads me))
    (hidle : next.threads me = .idle ↔ events.foldl Event.pending (pending? me seen) = none)
    (hreply : ∀ {earlier later reply}, events = earlier ++ .replied reply :: later →
      Answers setting sources
        ((earlier.foldl Event.pending (pending? me seen)).bind Request.root?) reply) :
    next.Recorded setting sources (seen ++ events.map fun event => (me, event)) := by
  constructor
  · refine hrecorded.faithful.step hreach hstep (fun other hne => ?_) ?_
    · rw [pending?_append_of_ne hne]
    · rwa [pending?_append_self]
  · intro thread
    by_cases hme : thread = me
    · subst hme
      rwa [pending?_append_self]
    · rw [pending?_append_of_ne hme, ← hrecorded.idle thread]
      obtain hsame | hwoken := hstep.thread_of_ne hme
      · rw [hsame]
      · rw [hwoken]
        refine ⟨fun hrest => ?_, fun hrest => by rw [hrest]; rfl⟩
        by_contra hbusy
        exact Thread.wake_ne_idle hbusy hrest
  · intro before after who reply hsplit
    obtain ⟨rest, hseen⟩ | ⟨earlier, hnew, rfl⟩ := eq_append_or_of_append hsplit
    · exact hrecorded.replies hseen
    · obtain ⟨first, second, rfl, rfl, hsecond⟩ := List.map_eq_append_iff.mp hnew
      obtain ⟨event, later, rfl, hevent, _⟩ := List.map_eq_cons_iff.mp hsecond
      cases hevent
      rw [pending?_append_self]
      exact hreply rfl

theorem step (hrecorded : world.Recorded setting sources seen) (hreach : Reachable setting world)
    (hstep : Step setting world me events next)
    (hregister : ∀ func, .begun (.register func) ∉ events) :
    next.Recorded setting sources (seen ++ events.map fun event => (me, event)) := by
  obtain ⟨request, rfl, _, hthread⟩ | ⟨hbusy, hcontinues⟩ :=
    hrecorded.faithful.continues hreach hstep
  · refine hrecorded.step_of hreach hstep ?_ ?_ ?_
    · rw [hthread]
      refine Follows.start fun func hrequest => hregister func ?_
      simp [hrequest]
    · rw [hthread]
      cases request <;> simp [Thread.start, Event.pending]
    · intro earlier later reply hevents
      obtain ⟨_, hreply⟩ | ⟨_, hreply⟩ := List.append_eq_singleton_iff.mp hevents.symm <;>
        cases hreply
  · have hserves := mt (hrecorded.idle me).mpr hbusy
    generalize hthread : next.threads me = thread at hcontinues
    cases hcontinues with
    | replied hreply =>
        refine hrecorded.step_of hreach hstep (hthread ▸ .idle)
          (by simp [hthread, Event.pending]) ?_
        intro earlier later reply hevents
        obtain ⟨rfl, hsame⟩ | ⟨_, hsame⟩ := List.append_eq_singleton_iff.mp hevents.symm <;>
          cases hsame
        exact hreply
    | panicked =>
        refine hrecorded.step_of hreach hstep (hthread ▸ .idle)
          (by simp [hthread, Event.pending]) ?_
        intro earlier later reply hevents
        obtain ⟨_, hreply⟩ | ⟨_, hreply⟩ := List.append_eq_singleton_iff.mp hevents.symm <;>
          cases hreply
    | working hbusy hfollows hquiet =>
        have hsame := foldl_pending_of_quiet hquiet (pending? me seen)
        refine hrecorded.step_of hreach hstep ?_ ?_ ?_
        · rwa [hsame, hthread]
        · rw [hsame, hthread]
          exact iff_of_false hbusy hserves
        · intro earlier later reply hevents
          have hevent := hquiet (.replied reply) (by simp [hevents])
          cases hevent

end World.Recorded

/-! ## Runs -/

theorem World.Loaded.recorded {world : World} (hloaded : world.Loaded setting) :
    world.Recorded setting world.shared.sources [] := by
  refine ⟨⟨rfl, fun hdone => ?_, fun thread => ?_⟩, fun me => ?_, fun hsplit => ?_⟩
  · rw [hloaded.slots] at hdone
    cases hdone
  · rw [hloaded.idle]
    exact .idle
  · exact iff_of_true (hloaded.idle me) rfl
  · simp at hsplit

theorem Run.recorded {start world : World} {seen : List (ThreadId × Event)}
    (hrun : Run setting start seen world) (hloaded : start.Loaded setting)
    (hfixed : ∀ me func, (me, .begun (.register func)) ∉ seen) :
    world.Recorded setting start.shared.sources seen := by
  induction hrun with
  | nil => exact hloaded.recorded
  | @step before after me seen events past next ih =>
      have hseen : ∀ me func, (me, .begun (.register func)) ∉ seen := fun me func hmem =>
        hfixed me func (List.mem_append_left _ hmem)
      refine (ih hseen).step (past.reachable hloaded.reachable) next fun func hmem => ?_
      exact hfixed me func (List.mem_append_right _ (List.mem_map.mpr ⟨_, hmem, rfl⟩))

/-- In every run from registered functions that does not register any, whatever the threads and the
order of their steps: the reply to a request for an acyclic key is what the key returns without a
cache, which is one outcome. And if every key returns without a cache, then threads that begin no
other requests come to rest whatever the order of their steps, and where they can take no step every
request has been answered or, after a failure of a pass, was given up. -/
theorem reply_eq_uncached {start world : World} {seen : List (ThreadId × Event)}
    (hloaded : start.Loaded setting) (hrun : Run setting start seen world)
    (hfixed : ∀ me func, (me, .begun (.register func)) ∉ seen) :
    (∀ before after me key reply, seen = before ++ (me, .replied reply) :: after →
      pending? me before = some (.compile key) → Acyclic setting start.shared.sources key →
        ∃ outcome, reply.outcome? = some outcome ∧
          ∀ other, Returns setting start.shared.sources key other ↔ other = outcome) ∧
    (AllReturn setting start.shared.sources →
      Acc (fun after before => GoesOn setting before after) world ∧
        ((∀ next, ¬ GoesOn setting world next) → ∀ me, pending? me seen = none)) := by
  have hrecorded := hrun.recorded hloaded hfixed
  have hreach := hrun.reachable hloaded.reachable
  constructor
  · intro before after me key reply hsplit hpending hacyclic
    obtain ⟨outcome, hreply, hreturns⟩ :=
      hrecorded.replies hsplit key (by rw [hpending]; rfl) hacyclic
    refine ⟨outcome, hreply, fun other => ⟨fun hother => hother.unique hreturns, ?_⟩⟩
    rintro rfl
    exact hreturns
  · intro hall
    refine ⟨hrecorded.faithful.acc hall hreach, fun hstuck me => ?_⟩
    exact (hrecorded.idle me).mp (hreach.idle_of_not_goesOn hstuck me)

/-- A function that calls another one. -/
def callingSource : FunctionDef :=
  { name := "g", args := [], body := [.ret {} (some (.call {} (.name {} "f" .load) [] []))] }

/-- The key of the caller. -/
def callingKey : Key := ⟨"g", []⟩

/-- Two functions are registered, one of which calls the other. -/
def loading : List (ThreadId × Option Request) :=
  [(0, some (.register staleSource)), (0, none), (0, some (.register callingSource)), (0, none)]

/-- The callee is being compiled by one thread when another one compiles the caller and waits. -/
def sharing : List (ThreadId × Option Request) :=
  [(1, some (.compile redefinedKey))] ++ moves 1 3 ++ [(0, some (.compile callingKey))] ++
    moves 0 8 ++ moves 1 10 ++ moves 0 11

/-- Whether the reply is a compiled function. -/
def Event.isCompiled : Event → Bool
  | .replied (.compiled _) => true
  | _ => false

/-- Whether the event begins a registration. -/
def Event.isRegistration : Event → Bool
  | .begun (.register _) => true
  | _ => false

theorem Event.isCompiled_iff {event : Event} :
    event.isCompiled ↔ ∃ artifact, event = .replied (.compiled artifact) := by
  unfold isCompiled
  split <;> simp_all

theorem loaded_loading : (World.after usualSetting loading).Loaded usualSetting := by
  refine ⟨World.after_reachable loading, fun thread => ?_, fun key => ?_⟩
  · by_cases hthread : thread = 0
    · subst hthread
      rfl
    · refine World.after_idle fun move hmem => ?_
      have hmoves : ∀ move ∈ loading, move.1 = 0 := by decide +kernel
      rwa [hmoves move hmem]
  · rfl

theorem sources_loading (name : String) :
    (World.after usualSetting loading).shared.sources.get? name =
      if name = "g" then some callingSource else if name = "f" then some staleSource else none := by
  have hsources : (World.after usualSetting loading).shared.sources =
      ((({} : Table String FunctionDef).insert "f" staleSource).insert "g" callingSource) := rfl
  rw [hsources, Table.get?_insert, Table.get?_insert, Table.get?_empty]

theorem allReturn_loading :
    AllReturn usualSetting (World.after usualSetting loading).shared.sources := by
  rintro ⟨name, args⟩
  have hsource := sources_loading name
  by_cases hg : name = "g"
  · subst hg
    cases args with
    | nil =>
        exact ⟨_, 2, Option.eq_some_of_isSome (by decide +kernel)⟩
    | cons ty args => exact ⟨_, returns_of_registered hsource ⟨0, rfl⟩⟩
  · by_cases hf : name = "f"
    · subst hf
      cases args with
      | nil => exact ⟨_, 1, Option.eq_some_of_isSome (by decide +kernel)⟩
      | cons ty args => exact ⟨_, returns_of_registered hsource ⟨0, rfl⟩⟩
    · simp only [hg, hf, if_false] at hsource
      exact ⟨_, @returns_of_unregistered _ _ ⟨name, args⟩ hsource⟩

theorem Request.eq_compile_of_root? {request : Option Request} {key : Key}
    (hroot : request.bind Request.root? = some key) : request = some (.compile key) := by
  obtain ⟨found, rfl, hfound⟩ := Option.bind_eq_some_iff.mp hroot
  cases found <;> cases hfound
  rfl

/-- A caller whose callee is being compiled by another thread gets what it would get without a
cache, and afterwards nothing is left to do. -/
theorem reply_eq_uncached_shared :
    ∃ before artifact,
      Run usualSetting (World.after usualSetting loading)
        (before ++ [(0, .replied (.compiled artifact))])
        (World.after usualSetting (loading ++ sharing)) ∧
      Returns usualSetting (World.after usualSetting loading).shared.sources callingKey
        (.ok artifact.compiled) ∧
      Acc (fun after before => GoesOn usualSetting before after)
        (World.after usualSetting (loading ++ sharing)) := by
  have hrun := World.follow?_seen
    (@World.follow?_after usualSetting loading sharing (by decide +kernel))
  have hshown : ((World.after usualSetting loading).seen usualSetting sharing).getLast?.any
      (fun entry => entry.1 = 0 && entry.2.isCompiled) := by decide +kernel
  have hpending : (pending? 0
      ((World.after usualSetting loading).seen usualSetting sharing).dropLast).bind Request.root? =
        some callingKey := by decide +kernel
  have hregister : ((World.after usualSetting loading).seen usualSetting sharing).all
      (fun entry => !entry.2.isRegistration) := by decide +kernel
  generalize (World.after usualSetting loading).seen usualSetting sharing = seen at *
  cases hlast : seen.getLast? with
  | none => simp [hlast] at hshown
  | some entry =>
      obtain ⟨thread, event⟩ := entry
      rw [hlast, Option.any_some, Bool.and_eq_true, decide_eq_true_eq] at hshown
      obtain ⟨rfl, hcompiled⟩ := hshown
      obtain ⟨artifact, rfl⟩ := Event.isCompiled_iff.mp hcompiled
      have hsplit := List.dropLast_append_getLast? _ hlast
      have hfixed : ∀ me func, (me, .begun (.register func)) ∉ seen := fun me func hmem =>
        absurd (List.all_eq_true.mp hregister _ hmem) (by simp [Event.isRegistration])
      obtain ⟨hreplies, hends⟩ := reply_eq_uncached loaded_loading hrun hfixed
      obtain ⟨outcome, houtcome, hreturns⟩ := hreplies seen.dropLast [] 0 callingKey _
        hsplit.symm (Request.eq_compile_of_root? hpending) (allReturn_loading.acyclic _)
      obtain rfl := Option.some.inj houtcome
      exact ⟨seen.dropLast, artifact, hsplit.symm ▸ hrun, (hreturns _).mpr rfl,
        (hends allReturn_loading).1⟩

end KernelFront.Cache
