import KernelFront.Proofs.Cache.Provenance
import KernelFront.Proofs.Cache.Sharing
import KernelFront.Proofs.Inference.External

/-! # Calls that a cache resolves

A compilation that comes to a call of another function is suspended until the cache has found out
how that function is called. The call is then typed: as a direct call, for which the arguments have
the right types already, or as a call through the host. Nothing that happens to the callee refuses
the caller.
-/

namespace KernelFront.Cache

variable {setting : Inference.Setting} {seen : List (ThreadId × Event)} {world next : World}
  {me : ThreadId} {key : Key} {caller : Caller} {callers : List Caller} {events : List Event}

/-- A compilation has asked for a key, and it is still suspended. -/
inductive Resolving (setting : Inference.Setting) (me : ThreadId) (key : Key) (caller : Caller)
    (callers : List Caller) : List (ThreadId × Event) → World → Prop where
  | asked {seen : List (ThreadId × Event)} {asking next : World} {events : List Event}
      (past : Run setting .initial seen asking)
      (asks : asking.threads me =
        .active (.running caller.claimed (.ask key.name key.args caller.next)) callers)
      (step : Step setting asking me events next)
      (suspended : callers.length < (next.threads me).depth) :
      Resolving setting me key caller callers (seen ++ events.map fun event => (me, event)) next
  | step {seen : List (ThreadId × Event)} {world next : World} {mover : ThreadId}
      {events : List Event} (past : Resolving setting me key caller callers seen world)
      (step : Step setting world mover events next)
      (suspended : callers.length < (next.threads me).depth) :
      Resolving setting me key caller callers (seen ++ events.map fun event => (mover, event)) next

/-- The cache declines to have a key called directly: no function of that name is registered, the
key cannot be compiled, or it can only be finished after the compilation that asks for it. -/
inductive World.Declines (world : World) (me : ThreadId) (key : Key) (callers : List Caller) :
    Prop where
  | unregistered (hmissing : ¬ world.shared.isRegistered key.name)
  | stored {e : TypeError} (hlooks : world.threads me = .active (.claiming key) callers)
      (hslot : world.shared.slots.get? key = some (.done (.error e)))
  | failed {claimed : Claimed} {e : TypeError} (hkey : claimed.key = key)
      (hends : world.threads me = .active (.notifying claimed (some (.error e))) callers)
  | cyclic {owner : ThreadId} (hlooks : world.threads me = .active (.claiming key) callers)
      (howner : world.shared.owner? key = some owner)
      (hblocked : Relation.ReflTransGen world.shared.BlockedOn owner me)

/-- The cache offers what it has compiled for a key. -/
inductive World.Offers (world : World) (me : ThreadId) (key : Key) (callers : List Caller) :
    Compiled → Prop where
  | stored {artifact : Artifact} (hlooks : world.threads me = .active (.claiming key) callers)
      (hslot : world.shared.slots.get? key = some (.done (.ok artifact))) :
      Offers world me key callers artifact.compiled
  | finished {claimed : Claimed} {artifact : Artifact} (hkey : claimed.key = key)
      (hends : world.threads me = .active (.notifying claimed (some (.ok artifact))) callers) :
      Offers world me key callers artifact.compiled

/-! ## While a compilation is suspended -/

theorem Resolving.run (hresolving : Resolving setting me key caller callers seen world) :
    Run setting .initial seen world := by
  induction hresolving with
  | asked past _ step _ => exact past.step step
  | step _ step _ ih => exact ih.step step

theorem Resolving.reachable (hresolving : Resolving setting me key caller callers seen world) :
    Reachable setting world :=
  ⟨seen, hresolving.run⟩

/-- The thread works for a key that a suspended compilation asked for, or it is about to give that
compilation up. -/
inductive Thread.Attempts (key : Key) (caller : Caller) (callers : List Caller) :
    Thread → Prop where
  | working {activity : Activity} {above : List Caller}
      (hpurpose : (Thread.active activity above).purpose? = some (.stored key)) :
      Attempts key caller callers (.active activity (above ++ caller :: callers))
  | failed : Attempts key caller callers (.active .unwinding (caller :: callers))

/-- What a step makes of a thread that works for a key. -/
inductive Attempted (me : ThreadId) (shared : Shared) (key : Key) (caller : Caller)
    (callers : List Caller) (activity : Activity) (suspended : List Caller) : Thread → Prop where
  | goesOn {thread : Thread} (hattempts : thread.Attempts key caller callers) :
      Attempted me shared key caller callers activity suspended thread
  | givenUp {thread : Thread} (hactivity : activity = .unwinding)
      (hsuspended : suspended = caller :: callers) (hdepth : thread.depth = callers.length) :
      Attempted me shared key caller callers activity suspended thread
  | answered {reply : Reply} {answer : Resolution}
      (hpurpose : activity.purpose? = some (.stored key))
      (hsuspended : suspended = caller :: callers)
      (hfinishes : Finishes me shared activity reply answer) :
      Attempted me shared key caller callers activity suspended
        (.active (.running caller.claimed (caller.next answer)) callers)

theorem Thread.Attempts.wake {thread : Thread} (hattempts : thread.Attempts key caller callers) :
    thread.wake.Attempts key caller callers := by
  cases hattempts with
  | failed => exact .failed
  | @working activity above hpurpose =>
      cases activity with
      | asleep asked => exact .working hpurpose
      | _ => exact .working hpurpose

/-- A pass that fails belongs to the innermost compilation, for which others are suspended. -/
theorem Thread.Attempts.panic {thread failed : Thread}
    (hattempts : thread.Attempts key caller callers) (hfails : thread.panic? = some failed) :
    failed.Attempts key caller callers := by
  cases hattempts with
  | failed => cases hfails
  | @working activity above hpurpose =>
      cases activity with
      | running claimed passes =>
          cases claimed with
          | some claimed =>
              cases hfails
              exact .working hpurpose
          | none =>
              cases hfails
              rcases above with _ | ⟨inner, above⟩
              · cases hpurpose
              · exact .working hpurpose
      | _ => cases hfails

theorem Thread.Attempts.suspended {thread : Thread}
    (hattempts : thread.Attempts key caller callers) :
    callers.length < thread.depth := by
  cases hattempts with
  | failed => exact Nat.lt_succ_self _
  | working =>
      rw [Thread.depth, List.length_append, List.length_cons]
      omega

theorem attempted_unwinding {shared : Shared} {suspended : List Caller} {turn : Turn}
    (hattempts : (Thread.active .unwinding suspended).Attempts key caller callers)
    (hmoves : advance setting me shared suspended .unwinding = some turn) :
    Attempted me shared key caller callers .unwinding suspended turn.thread := by
  cases hattempts with
  | failed =>
      obtain ⟨_ | claimed, resume⟩ := caller <;> cases hmoves <;> exact .givenUp rfl rfl rfl
  | @working _ above hpurpose =>
      -- The innermost of the suspended compilations is given up, but not the outermost one.
      rcases above with _ | ⟨⟨_ | claimed, resume⟩, above⟩
      · cases hpurpose
      · cases hmoves
        rcases above with _ | ⟨outer, above⟩
        · cases hpurpose
        · exact .goesOn (.working hpurpose)
      · cases hmoves
        exact .goesOn (.working hpurpose)

theorem Advances.attempted {shared after : Shared} {activity : Activity} {suspended : List Caller}
    {thread : Thread}
    (hadvances : Advances setting me shared activity suspended thread after events)
    (hattempts : (Thread.active activity suspended).Attempts key caller callers)
    (hwinding : activity ≠ .unwinding) :
    Attempted me shared key caller callers activity suspended thread := by
  cases hattempts with
  | failed => exact absurd rfl hwinding
  | @working _ above hpurpose =>
      generalize hall : above ++ caller :: callers = suspended at hadvances
      cases hadvances with
      | @onward next _ _ hmove =>
          subst hall
          obtain hsame | rfl := hmove.purpose?
          · refine .goesOn (.working ?_)
            rw [Thread.purpose?, hsame]
            exact hpurpose
          · rcases above with _ | ⟨inner, above⟩
            · exact .goesOn .failed
            · exact .goesOn (.working hpurpose)
      | @nested claimed callee types resume hasks =>
          subst hall hasks
          have hworking : (Thread.active (.seeking ⟨callee, types⟩)
              ((⟨claimed, resume⟩ :: above) ++ caller :: callers)).Attempts key caller callers :=
            .working hpurpose
          exact .goesOn hworking
      | resumed hcallers hfinishes _ _ _ =>
          rcases above with _ | ⟨inner, above⟩
          · obtain ⟨rfl, rfl⟩ := List.cons.inj (hall.trans hcallers)
            exact .answered hpurpose hall.symm hfinishes
          · obtain ⟨rfl, rfl⟩ := List.cons.inj (hall.trans hcallers)
            exact .goesOn (.working hpurpose)
      | replied hcallers _ _ _ _ =>
          rw [hcallers] at hall
          simp at hall
      | unwound hactivity _ => exact absurd hactivity hwinding

/-- What a step of the thread itself makes of an attempt. -/
theorem Reachable.attempted {activity : Activity} {suspended : List Caller} {turn : Turn}
    (hreach : Reachable setting world) (hbusy : world.threads me = .active activity suspended)
    (hmoves : advance setting me world.shared suspended activity = some turn)
    (hattempts : (world.threads me).Attempts key caller callers) :
    Attempted me world.shared key caller callers activity suspended turn.thread := by
  rw [hbusy] at hattempts
  by_cases hwinding : activity = .unwinding
  · subst hwinding
    exact attempted_unwinding hattempts hmoves
  · exact (hreach.advances hbusy hmoves).attempted hattempts hwinding

/-- A suspended compilation stays suspended until it is given up or gets its answer. -/
theorem Reachable.attempts_step (hreach : Reachable setting world)
    (hattempts : (world.threads me).Attempts key caller callers)
    (hstep : Step setting world me events next) :
    (next.threads me).Attempts key caller callers ∨
    (world.threads me = .active .unwinding (caller :: callers) ∧
      (next.threads me).depth = callers.length) ∨
    ∃ activity reply answer, world.threads me = .active activity (caller :: callers) ∧
      activity.purpose? = some (.stored key) ∧ Finishes me world.shared activity reply answer ∧
      next.threads me = .active (.running caller.claimed (caller.next answer)) callers := by
  cases hstep with
  | «begin» request rest =>
      rw [rest] at hattempts
      cases hattempts
  | @advance activity suspended turn busy moves =>
      have hattempted := hreach.attempted busy moves hattempts
      have hthread := world.afterTurn_own me turn
      generalize turn.thread = thread at hattempted hthread
      cases hattempted with
      | goesOn hgoes =>
          obtain hthread | hthread := hthread <;> rw [hthread]
          · exact .inl hgoes
          · exact .inl hgoes.wake
      | givenUp hactivity hsuspended hdepth =>
          subst hactivity hsuspended
          refine .inr (.inl ⟨busy, ?_⟩)
          obtain hthread | hthread := hthread <;> rw [hthread]
          · exact hdepth
          · rw [Thread.depth_wake, hdepth]
      | answered hpurpose hsuspended hfinishes =>
          subst hsuspended
          exact .inr (.inr ⟨activity, _, _, busy, hpurpose, hfinishes, hthread.elim id id⟩)
  | wake waits =>
      rw [waits] at hattempts
      have hwoken := hattempts.wake
      left
      simpa [World.setThread, Thread.wake] using hwoken
  | panic fails =>
      left
      have hfailed := hattempts.panic fails
      simpa [World.setThread] using hfailed

/-- After its question a compilation is suspended, and its thread looks for the function. -/
theorem Step.asked (hstep : Step setting world me events next)
    (hasks : world.threads me =
      .active (.running caller.claimed (.ask key.name key.args caller.next)) callers)
    (hsuspended : callers.length < (next.threads me).depth) :
    next.threads me = .active (.seeking key) (caller :: callers) := by
  cases hstep with
  | «begin» request rest => cases hasks.symm.trans rest
  | advance busy moves =>
      cases hasks.symm.trans busy
      cases moves
      exact (world.afterTurn_own me _).elim id id
  | wake waits => cases hasks.symm.trans waits
  | panic fails =>
      -- The pass fails before it has asked.
      rw [hasks] at fails
      cases hclaimed : caller.claimed <;> rw [hclaimed] at fails <;> cases fails <;>
        simp [World.setThread, Thread.depth] at hsuspended

theorem Resolving.attempts (hresolving : Resolving setting me key caller callers seen world) :
    (world.threads me).Attempts key caller callers := by
  induction hresolving with
  | asked past asks step suspended =>
      rw [step.asked asks suspended]
      have hworking : (Thread.active (.seeking key) ([] ++ caller :: callers)).Attempts key caller
          callers := .working rfl
      exact hworking
  | @step seen world next mover events past step suspended ih =>
      by_cases hmover : me = mover
      · subst hmover
        obtain hattempts | ⟨-, hdepth⟩ | ⟨_, _, _, -, -, -, hthread⟩ :=
          past.reachable.attempts_step ih step
        · exact hattempts
        · exact absurd suspended (by omega)
        · rw [hthread] at suspended
          exact absurd suspended (Nat.lt_irrefl _)
      · obtain hthread | hthread := step.thread_of_ne hmover <;> rw [hthread]
        · exact ih
        · exact ih.wake

/-- A request that comes to an end is answered in the next step. -/
theorem Step.answered {activity : Activity} {reply : Reply} {answer : Resolution}
    (hstep : Step setting world me events next)
    (hbusy : world.threads me = .active activity (caller :: callers))
    (hfinishes : Finishes me world.shared activity reply answer) :
    next.threads me = .active (.running caller.claimed (caller.next answer)) callers := by
  cases hstep with
  | «begin» request rest => cases hbusy.symm.trans rest
  | wake waits =>
      cases hbusy.symm.trans waits
      cases hfinishes
  | panic fails =>
      rw [hbusy] at fails
      cases hfinishes <;> cases fails
  | @advance _ _ turn busy moves =>
      cases hbusy.symm.trans busy
      have hthread :
          turn.thread = .active (.running caller.claimed (caller.next answer)) callers := by
        cases hfinishes with
        | unknown hmissing =>
            simp only [Cache.advance, if_neg hmissing] at moves
            cases moves
            rfl
        | ready hslot =>
            simp only [Cache.advance, Shared.claim, hslot] at moves
            cases moves
            rfl
        | cycle howner hwaits =>
            have hslot := Shared.owner?_eq_some.mp howner
            simp only [Cache.advance, Shared.claim, hslot, hwaits, if_true] at moves
            cases moves
            rfl
        | settled =>
            cases moves
            rfl
      obtain hafter | hafter := world.afterTurn_own me turn <;> rw [hafter, hthread]
      rfl

/-- The request for an unregistered function has not got beyond looking for it. -/
theorem Resolving.seeking (hresolving : Resolving setting me key caller callers seen world)
    (hmissing : ¬ world.shared.isRegistered key.name) :
    world.threads me = .active (.seeking key) (caller :: callers) := by
  induction hresolving with
  | asked past asks step suspended => exact step.asked asks suspended
  | @step seen world next mover events past step suspended ih =>
      have hbefore : ¬ world.shared.isRegistered key.name := fun hregistered =>
        hmissing ((past.reachable.progress step).isRegistered hregistered)
      have hseeking := ih hbefore
      by_cases hmover : me = mover
      · subst hmover
        rw [step.answered hseeking (.unknown hbefore)] at suspended
        exact absurd suspended (Nat.lt_irrefl _)
      · obtain hthread | hthread := step.thread_of_ne hmover
        · rw [hthread, hseeking]
        · rw [hthread, hseeking]
          rfl

/-- A request that is declined is about to be answered. -/
theorem World.Declines.finishes (hresolving : Resolving setting me key caller callers seen world)
    (hdeclines : world.Declines me key (caller :: callers)) :
    ∃ activity reply, world.threads me = .active activity (caller :: callers) ∧
      Finishes me world.shared activity reply .host := by
  cases hdeclines with
  | unregistered hmissing => exact ⟨_, _, hresolving.seeking hmissing, .unknown hmissing⟩
  | stored hlooks hslot => exact ⟨_, _, hlooks, .ready hslot⟩
  | failed _ hends => exact ⟨_, _, hends, .settled⟩
  | cyclic hlooks howner hblocked =>
      obtain ⟨rank, hranks⟩ := hresolving.reachable.attentive.ranks
      exact ⟨_, _, hlooks, .cycle howner (hranks.waitsOn_iff.mpr hblocked)⟩

/-- What is offered is about to be handed out. -/
theorem World.Offers.finishes {suspended : List Caller} {compiled : Compiled}
    (hoffers : world.Offers me key suspended compiled) :
    ∃ activity reply, world.threads me = .active activity suspended ∧
      Finishes me world.shared activity reply (.native compiled.entryPoint) := by
  cases hoffers with
  | stored hlooks hslot => exact ⟨_, _, hlooks, .ready hslot⟩
  | finished _ hends => exact ⟨_, _, hends, .settled⟩

/-- What is offered was compiled from a registered function. -/
theorem World.Offers.made {suspended : List Caller} {compiled : Compiled}
    (hoffers : world.Offers me key suspended compiled) (hsourced : world.Sourced setting seen) :
    Made setting seen key compiled := by
  cases hoffers with
  | stored _ hslot => exact hsourced.shared.done hslot _ rfl
  | finished hkey hends =>
      have hthread := hsourced.threads me
      rw [hends] at hthread
      exact hkey ▸ hthread.1 _ rfl

/-- A request that comes to an end is declined, or something is offered for it. -/
theorem Finishes.declines_or_offers {activity : Activity} {suspended : List Caller} {reply : Reply}
    {answer : Resolution} (hfinishes : Finishes me world.shared activity reply answer)
    (hbusy : world.threads me = .active activity suspended)
    (hpurpose : activity.purpose? = some (.stored key)) :
    world.Declines me key suspended ∨ ∃ compiled, world.Offers me key suspended compiled := by
  cases hfinishes with
  | unknown hmissing =>
      cases hpurpose
      exact .inl (.unregistered hmissing)
  | @ready _ entry hslot =>
      cases hpurpose
      cases entry with
      | error e => exact .inl (.stored hbusy hslot)
      | ok artifact => exact .inr ⟨_, .stored hbusy hslot⟩
  | cycle howner hwaits =>
      cases hpurpose
      exact .inl (.cyclic hbusy howner (Shared.blockedWithin.reflTransGen hwaits))
  | @settled claimed entry =>
      cases hpurpose
      cases entry with
      | error e => exact .inl (.failed rfl hbusy)
      | ok artifact => exact .inr ⟨_, .finished rfl hbusy⟩

/-- A step of the thread while a compilation is suspended: it resumes the compilation with the
answer to call the key through the host if the key is declined, and with the entry point of what is
offered, if anything is. Otherwise the compilation stays suspended, or it is given up because a pass
failed unexpectedly. -/
theorem Resolving.step_me (hresolving : Resolving setting me key caller callers seen world)
    (hstep : Step setting world me events next) :
    (world.Declines me key (caller :: callers) ∧
      next.threads me = .active (.running caller.claimed (caller.next .host)) callers) ∨
    (¬ world.Declines me key (caller :: callers) ∧
      ((∃ compiled, world.Offers me key (caller :: callers) compiled ∧
        next.threads me = .active
          (.running caller.claimed (caller.next (.native compiled.entryPoint))) callers) ∨
      ((∀ compiled, ¬ world.Offers me key (caller :: callers) compiled) ∧
        (Resolving setting me key caller callers (seen ++ events.map fun event => (me, event))
            next ∨
          world.threads me = .active .unwinding (caller :: callers))))) := by
  by_cases hdeclines : world.Declines me key (caller :: callers)
  · obtain ⟨activity, reply, hbusy, hfinishes⟩ := hdeclines.finishes hresolving
    exact .inl ⟨hdeclines, hstep.answered hbusy hfinishes⟩
  refine .inr ⟨hdeclines, ?_⟩
  by_cases hoffers : ∃ compiled, world.Offers me key (caller :: callers) compiled
  · obtain ⟨compiled, hoffers⟩ := hoffers
    obtain ⟨activity, reply, hbusy, hfinishes⟩ := hoffers.finishes
    exact .inl ⟨compiled, hoffers, hstep.answered hbusy hfinishes⟩
  refine .inr ⟨fun compiled hcompiled => hoffers ⟨compiled, hcompiled⟩, ?_⟩
  obtain hattempts | ⟨hunwinding, -⟩ | ⟨activity, reply, answer, hbusy, hpurpose, hfinishes, -⟩ :=
    hresolving.reachable.attempts_step hresolving.attempts hstep
  · exact .inl (hresolving.step hstep hattempts.suspended)
  · exact .inr hunwinding
  · exact absurd (hfinishes.declines_or_offers hbusy hpurpose) (not_or_intro hdeclines hoffers)

/-! ## The theorem -/

/-- The thread goes on with a compilation, in which a call has had this outcome. -/
def Thread.Resumes (thread : Thread) (claimed : Option Claimed) (callers : List Caller)
    (rest : Except TypeError (Expr × Inference.Scope) → Passes)
    (outcome : Except TypeError (Expr × Inference.Scope)) : Prop :=
  ∃ message, thread = .active (.running claimed (.report message (rest outcome))) callers

open Inference in
/-- A call of a global or of a module's function without keyword arguments, whose callee and
arguments have types, asks how the callee is called with arguments of these types, whatever the
compilation does after the call. Take any step of its thread while the compilation is suspended, in
any run and for any registered functions. The cache declines the request if the callee is not
registered, cannot be compiled for these types, or can only be compiled after the caller: exactly
then the compilation goes on with a call through the host, all parts of which are boxed. As soon as
the cache has something to offer, the compilation goes on with a direct call of it. This was
compiled from a registered function with as many parameters as the call has arguments; the
parameters have the types of the arguments, which stay as they are, and the call has the result type
of the callee. Until then the compilation stays suspended, unless it is given up because a pass
failed unexpectedly. -/
theorem resolved_call_ok {scope : Scope} {span : Span} {func : Expr} {args : List Expr}
    {callee : String} {types : List Ty} {own ty : Ty}
    (hargs : args.map (Expr.typeIn? scope.symbols) = types.map some)
    (hfunc : func.typeIn? scope.symbols = some own)
    (hexternal : IsExternal args scope.symbols own callee ty)
    (rest : Except TypeError (Expr × Scope) → Passes) :
    ∃ resume, ((typeCall setting span func args []).run scope).run.bind rest =
        .ask callee types resume ∧
      ∀ {me : ThreadId} {claimed : Option Claimed} {callers : List Caller}
        {seen : List (ThreadId × Event)} {world next : World} {events : List Event},
        Resolving setting me ⟨callee, types⟩ ⟨claimed, resume⟩ callers seen world →
        Step setting world me events next →
        (world.Declines me ⟨callee, types⟩ (⟨claimed, resume⟩ :: callers) ∧
          (next.threads me).Resumes claimed callers rest
            (.ok (.objectCall (.typed span ty) (func.convert scope.symbols .object)
              (args.map (Expr.convert scope.symbols .object)) [], scope))) ∨
        (¬ world.Declines me ⟨callee, types⟩ (⟨claimed, resume⟩ :: callers) ∧
          ((∃ compiled source,
            world.Offers me ⟨callee, types⟩ (⟨claimed, resume⟩ :: callers) compiled ∧
            Registered seen callee source ∧ source.args.length = args.length ∧
            (compilation setting source ⟨callee, types⟩).Yields (.ok compiled) ∧
            compiled.signature.args = types ∧
            (next.threads me).Resumes claimed callers rest
              (.ok (.nativeCall (.typed span compiled.signature.ret) compiled.symbol
                compiled.signature args, scope))) ∨
          ((∀ compiled,
              ¬ world.Offers me ⟨callee, types⟩ (⟨claimed, resume⟩ :: callers) compiled) ∧
            (Resolving setting me ⟨callee, types⟩ ⟨claimed, resume⟩ callers
                (seen ++ events.map fun event => (me, event)) next ∨
              world.threads me = .active .unwinding (⟨claimed, resume⟩ :: callers))))) := by
  have hasks : ((typeCall setting span func args []).run scope).run.bind rest =
      .ask callee types fun answer => .report (resolutionMessage callee answer)
        (rest ((resolvedCall span func args ty scope.symbols answer).map fun call =>
          (call, scope))) := by
    rw [run_typeCall hargs hfunc hexternal]
    rfl
  refine ⟨_, hasks, ?_⟩
  intro me claimed callers seen world next events hresolving hstep
  obtain ⟨hdeclines, hthread⟩ | ⟨hdeclines, ⟨compiled, hoffers, hthread⟩ | hwaits⟩ :=
    hresolving.step_me hstep
  · exact .inl ⟨hdeclines, _, hthread⟩
  · obtain ⟨source, hregistered, hyields⟩ := hoffers.made hresolving.run.sourced
    obtain ⟨hparams, harity⟩ := args_of_compilation hyields
    have hlength : args.length = types.length := by simpa using congrArg List.length hargs
    have hcall : resolvedCall span func args ty scope.symbols (.native compiled.entryPoint) =
        .ok (.nativeCall (.typed span compiled.signature.ret) compiled.symbol compiled.signature
          args) := directCall_eq_ok (hparams.symm ▸ hargs)
    simp only [hcall] at hthread
    exact .inr ⟨hdeclines, .inl ⟨compiled, source, hoffers, hregistered,
      harity.trans hlength.symm, hyields, hparams, _, hthread⟩⟩
  · exact .inr ⟨hdeclines, .inr hwaits⟩

/-! ### A function that calls another one -/

/-- Follow a schedule as long as more than `bound` compilations of a thread are suspended. -/
def World.staysSuspended (setting : Inference.Setting) (me : ThreadId) (bound : Nat)
    (world : World) : List (ThreadId × Option Request) → Bool
  | [] => true
  | (mover, request) :: schedule =>
      match world.move? setting mover request with
      | none => false
      | some next =>
          decide (bound < (next.threads me).depth) &&
            next.staysSuspended setting me bound schedule

theorem Resolving.follow {schedule : List (ThreadId × Option Request)}
    (hresolving : Resolving setting me key caller callers seen world)
    (hfollow : world.follow? setting schedule = some next)
    (hstays : world.staysSuspended setting me callers.length schedule) :
    ∃ later, Resolving setting me key caller callers later next := by
  induction schedule generalizing seen world with
  | nil => exact ⟨seen, Option.some.inj hfollow ▸ hresolving⟩
  | cons head schedule ih =>
      obtain ⟨mover, request⟩ := head
      simp only [World.follow?, Option.bind_eq_some_iff] at hfollow
      obtain ⟨middle, hmove, hrest⟩ := hfollow
      simp only [World.staysSuspended, hmove, Bool.and_eq_true, decide_eq_true_eq] at hstays
      exact ih (hresolving.step (World.move?_shown hmove) hstays.1) hrest hstays.2

/-- A function that doubles its argument. -/
def doublingSource : FunctionDef where
  name := "double"
  args := ["x"]
  body := [.ret {} (some (.binOp {} (.name {} "x" .load) .add (.name {} "x" .load)))]

/-- A call of that function. -/
def relayedCall : Expr := .call {} (.name {} "double" .load) [.name {} "x" .load] []

/-- A function that hands its argument on. -/
def relayingSource : FunctionDef where
  name := "relay"
  args := ["x"]
  body := [.expr {} relayedCall]

def relayingKey : Key := ⟨"relay", [.int64]⟩

/-- The callee and the argument of the call when they were visited, and the scope at that time. -/
def relayedCallee : Expr := .name { span := {}, binding := some (.symbol ⟨3⟩) } "double" .load

def relayedArgument : Expr := .name { span := {}, binding := some (.symbol ⟨1⟩) } "x" .load

def relayingScope : Inference.Scope :=
  (Inference.Scope.ofFunction relayingSource [.int64]).declare
    (.globalNamed "double" (.global "double"))

/-- A thread registers both functions and compiles the second one up to the call of the first. -/
def relaying : List (ThreadId × Option Request) :=
  [(0, some (.register doublingSource)), (0, none), (0, some (.register relayingSource)), (0, none),
    (0, some (.compile relayingKey))] ++ moves 0 5

/-- What is left of a dialogue after the reports at its beginning. -/
def unreported : Passes → Passes
  | .report _ next => unreported next
  | passes => passes

theorem exists_compile_relayingSource : ∃ (text : String) (rest : Expr × Inference.Scope →
    Pass Compiled), relayingSource.compile usualSetting ⟨[.int64], none⟩ = (do
      Pass.report .debug text
      let visited ← (Inference.inferExpr usualSetting relayedCall).run
        (Inference.Scope.ofFunction relayingSource [.int64])
      rest visited) := by
  have hlength : relayingSource.args.length = [Ty.int64].length := rfl
  have hbody : relayingSource.body = [.expr {} relayedCall] := rfl
  unfold FunctionDef.compile Inference.inferFunction
  simp only [hlength, ne_eq, not_true_eq_false, if_false, hbody, Inference.inferBody,
    Inference.inferStmt, StateT.run_bind, bind_assoc]
  exact ⟨_, _, rfl⟩

theorem exists_relaying : ∃ rest, (World.after usualSetting relaying).threads 0 =
    .active (.running (some ⟨relayingKey, 1⟩) (((Inference.typeCall usualSetting {} relayedCallee
      [relayedArgument] []).run relayingScope).run.bind rest)) [] := by
  obtain ⟨text, rest, hcompile⟩ := exists_compile_relayingSource
  have hthread : (World.after usualSetting relaying).threads 0 =
      .active (.running (some ⟨relayingKey, 1⟩)
        (unreported (compilation usualSetting relayingSource relayingKey))) [] := rfl
  refine ⟨ExceptT.bindCont rest, ?_⟩
  rw [hthread, compilation, relayingKey, hcompile]
  rfl

/-- The thread goes on up to the moment at which the call is about to be resolved. -/
def relayed : List (ThreadId × Option Request) := relaying ++ [(0, none)] ++ moves 0 12

theorem exists_resolving_relayed {resume : Resolution → Passes}
    (hasking : (World.after usualSetting relaying).threads 0 =
      .active (.running (some ⟨relayingKey, 1⟩) (.ask "double" [.int64] resume)) []) :
    ∃ seen, Resolving usualSetting 0 ⟨"double", [.int64]⟩ ⟨some ⟨relayingKey, 1⟩, resume⟩ [] seen
      (World.after usualSetting relayed) := by
  obtain ⟨seen, hrun⟩ := @World.after_reachable usualSetting relaying
  obtain ⟨_, hask⟩ := @World.after_step usualSetting relaying 0 none (by decide +kernel)
  have hasked : Resolving usualSetting 0 ⟨"double", [.int64]⟩ ⟨some ⟨relayingKey, 1⟩, resume⟩ [] _
      (World.after usualSetting (relaying ++ [(0, none)])) :=
    .asked hrun hasking hask (by decide +kernel)
  have hfollow := @World.follow?_after usualSetting (relaying ++ [(0, none)]) (moves 0 12)
    (by decide +kernel)
  exact hasked.follow hfollow (by decide +kernel)

/-- The call of a function that can be compiled becomes a direct one. -/
theorem resolved_call_ok_relayed :
    [relayedArgument].map (Expr.typeIn? relayingScope.symbols) = [Ty.int64].map some ∧
    relayedCallee.typeIn? relayingScope.symbols = some (.global "double") ∧
    ∃ rest resume seen, ∃ source : FunctionDef, ∃ compiled : Compiled,
      Resolving usualSetting 0 ⟨"double", [.int64]⟩ ⟨some ⟨relayingKey, 1⟩, resume⟩ [] seen
        (World.after usualSetting relayed) ∧
      Registered seen "double" source ∧ source.args.length = [relayedArgument].length ∧
      compiled.signature.args = [.int64] ∧
      ((World.after usualSetting (relayed ++ [(0, none)])).threads 0).Resumes
        (some ⟨relayingKey, 1⟩) [] rest
        (.ok (.nativeCall (.typed {} compiled.signature.ret) compiled.symbol compiled.signature
          [relayedArgument], relayingScope)) := by
  have hargs : [relayedArgument].map (Expr.typeIn? relayingScope.symbols) =
      [Ty.int64].map some := by decide
  have hfunc : relayedCallee.typeIn? relayingScope.symbols = some (.global "double") := by decide
  obtain ⟨rest, hasking⟩ := exists_relaying
  obtain ⟨resume, hasks, hsteps⟩ := @resolved_call_ok usualSetting relayingScope {} relayedCallee
    [relayedArgument] "double" [.int64] (.global "double") .object hargs hfunc (.global "double")
    rest
  obtain ⟨seen, hresolving⟩ := exists_resolving_relayed (hasks ▸ hasking)
  obtain ⟨_, hstep⟩ := @World.after_step usualSetting relayed 0 none (by decide +kernel)
  -- The callee was compiled, and this is about to be handed out.
  have hfound : (World.after usualSetting relayed).shared.isRegistered "double" := by
    decide +kernel
  have hawaits : ((World.after usualSetting relayed).threads 0).awaits? = none := by decide +kernel
  have hfailed : ((World.after usualSetting relayed).threads 0).failed? = none := by decide +kernel
  have hcalm : ((World.after usualSetting relayed).threads 0).failing = false := by decide +kernel
  have hdepth : ((World.after usualSetting (relayed ++ [(0, none)])).threads 0).depth = 0 := by
    decide +kernel
  generalize World.after usualSetting (relayed ++ [(0, none)]) = next at *
  generalize World.after usualSetting relayed = world at *
  obtain ⟨hdeclines, -⟩ | ⟨-, ⟨compiled, source, -, hregistered, harity, -, hparams, hresumes⟩ |
      ⟨-, hagain | hunwinding⟩⟩ := hsteps hresolving hstep
  · cases hdeclines with
    | unregistered hmissing => exact absurd hfound hmissing
    | stored hlooks _ =>
        rw [hlooks] at hawaits
        cases hawaits
    | failed _ hends =>
        rw [hends] at hfailed
        cases hfailed
    | cyclic hlooks _ _ =>
        rw [hlooks] at hawaits
        cases hawaits
  · exact ⟨hargs, hfunc, rest, resume, seen, source, compiled, hresolving, hregistered, harity,
      hparams, hresumes⟩
  · exact absurd hagain.attempts.suspended (by simp [hdepth])
  · rw [hunwinding] at hcalm
    cases hcalm

end KernelFront.Cache
