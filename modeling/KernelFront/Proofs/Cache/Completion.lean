import Mathlib.Algebra.Order.BigOperators.Group.Finset
import KernelFront.Proofs.Cache.Deadlock
import KernelFront.Proofs.Cache.Fidelity

/-! # Threads come to rest

If every key returns without a cache, the steps that a thread still has to take can be counted, as
if it had to compile every key that it asks for by itself. A step of a thread lowers its count,
except that a thread may look at a key in flight and sleep on it. It looks again only when another
thread got on. So threads that are left alone come to rest, and nothing but rest stops them.
-/

namespace KernelFront.Cache

section Definitions

variable (setting : Inference.Setting) (sources : Table String FunctionDef)

/-- Without a cache the compilation ends after this many steps, those for callees included. To ask,
to look up the callee, to claim it, to read its source, to store, to release and to announce its
outcome are a step each. -/
inductive Takes : Passes → Nat → Prop where
  | done {result : Except TypeError Compiled} : Takes (.done result) 1
  | report {message : Message} {next : Passes} {steps : Nat} (hrest : Takes next steps) :
      Takes (.report message next) (steps + 1)
  | unregistered {name : String} {args : List Ty} {next : Resolution → Passes} {steps : Nat}
      (hsource : sources.get? name = none) (hrest : Takes (next .host) steps) :
      Takes (.ask name args next) (steps + 2)
  | registered {name : String} {args : List Ty} {next : Resolution → Passes} {steps callee : Nat}
      {source : FunctionDef} {outcome : Except CompileError Compiled}
      (hsource : sources.get? name = some source)
      (hcallee : Takes (compilation setting source ⟨name, args⟩) callee)
      (hreturns : Returns setting sources ⟨name, args⟩ outcome)
      (hrest : Takes (next (answerFor outcome)) steps) :
      Takes (.ask name args next) (steps + callee + 7)

/-- The steps that the callers take once the outcome of the key is known. -/
inductive Owes : Key → List Caller → Nat → Prop where
  | nil {key : Key} : Owes key [] 0
  | uncached {key : Key} {next : Resolution → Passes} {outcome : Except CompileError Compiled}
      {steps : Nat} (hreturns : Returns setting sources key outcome)
      (hnext : Takes setting sources (next (answerFor outcome)) steps) :
      Owes key [⟨none, next⟩] (steps + 1)
  | caller {key : Key} {claimed : Claimed} {next : Resolution → Passes} {callers : List Caller}
      {outcome : Except CompileError Compiled} {steps rest : Nat}
      (hreturns : Returns setting sources key outcome)
      (hnext : Takes setting sources (next (answerFor outcome)) steps)
      (hrest : Owes claimed.key callers rest) :
      Owes key (⟨some claimed, next⟩ :: callers) (steps + 3 + rest)

/-- The steps it takes to give up callers after a panic. -/
def burden : List Caller → Nat
  | [] => 0
  | caller :: callers => (if caller.claimed.isSome then 3 else 1) + burden callers

/-- The thread comes to rest after at most this many steps. To sleep and to look at a key again is
not counted. -/
inductive Needs : Thread → Nat → Prop where
  | idle : Needs .idle 0
  | unknown {key : Key} {callers : List Caller} {rest : Nat}
      (hsource : sources.get? key.name = none) (hrest : Owes setting sources key callers rest) :
      Needs (.active (.seeking key) callers) (1 + rest)
  | seeking {key : Key} {callers : List Caller} {source : FunctionDef} {callee rest : Nat}
      (hsource : sources.get? key.name = some source)
      (hcallee : Takes setting sources (compilation setting source key) callee)
      (hrest : Owes setting sources key callers rest) :
      Needs (.active (.seeking key) callers) (callee + 6 + rest)
  | claiming {key : Key} {callers : List Caller} {source : FunctionDef} {callee rest : Nat}
      (hsource : sources.get? key.name = some source)
      (hcallee : Takes setting sources (compilation setting source key) callee)
      (hrest : Owes setting sources key callers rest) :
      Needs (.active (.claiming key) callers) (callee + 5 + rest)
  | asleep {key : Key} {callers : List Caller} {source : FunctionDef} {callee rest : Nat}
      (hsource : sources.get? key.name = some source)
      (hcallee : Takes setting sources (compilation setting source key) callee)
      (hrest : Owes setting sources key callers rest) :
      Needs (.active (.asleep key) callers) (callee + 5 + rest)
  | reading {claimed : Claimed} {callers : List Caller} {source : FunctionDef} {callee rest : Nat}
      (hsource : sources.get? claimed.key.name = some source)
      (hcallee : Takes setting sources (compilation setting source claimed.key) callee)
      (hrest : Owes setting sources claimed.key callers rest) :
      Needs (.active (.reading claimed) callers) (callee + 4 + rest)
  | running {claimed : Claimed} {passes : Passes} {callers : List Caller} {steps rest : Nat}
      (hpasses : Takes setting sources passes steps)
      (hrest : Owes setting sources claimed.key callers rest) :
      Needs (.active (.running (some claimed) passes) callers) (steps + 3 + rest)
  | settling {claimed : Claimed} {entry : Entry} {callers : List Caller} {rest : Nat}
      (hrest : Owes setting sources claimed.key callers rest) :
      Needs (.active (.settling claimed entry) callers) (3 + rest)
  | releasing {claimed : Claimed} {entry : Entry} {callers : List Caller} {rest : Nat}
      (hrest : Owes setting sources claimed.key callers rest) :
      Needs (.active (.releasing claimed (some entry)) callers) (2 + rest)
  | notifying {claimed : Claimed} {entry : Entry} {callers : List Caller} {rest : Nat}
      (hrest : Owes setting sources claimed.key callers rest) :
      Needs (.active (.notifying claimed (some entry)) callers) (1 + rest)
  | opening {name : String} {signature : Signature} {steps : Nat}
      (hpasses : ∀ source, sources.get? name = some source →
        Takes setting sources (source.compile setting signature).run steps) :
      Needs (.active (.opening name signature) []) (steps + 3)
  | counting {source : FunctionDef} {signature : Signature} {steps : Nat}
      (hpasses : Takes setting sources (source.compile setting signature).run steps) :
      Needs (.active (.counting source signature) []) (steps + 2)
  | uncached {passes : Passes} {steps : Nat} (hpasses : Takes setting sources passes steps) :
      Needs (.active (.running none passes) []) (steps + 1)
  | releasingFailed {claimed : Claimed} {callers : List Caller} :
      Needs (.active (.releasing claimed none) callers) (burden callers + 3)
  | notifyingFailed {claimed : Claimed} {callers : List Caller} :
      Needs (.active (.notifying claimed none) callers) (burden callers + 2)
  | unwinding {callers : List Caller} : Needs (.active .unwinding callers) (burden callers + 1)

/-- Every key returns if it is compiled without a cache. -/
def AllReturn : Prop := ∀ key, ∃ outcome, Returns setting sources key outcome

end Definitions

variable {setting : Inference.Setting} {sources : Table String FunctionDef} {root : Option Key}

/-! ## Every count exists -/

theorem AllReturn.acyclic (hall : AllReturn setting sources) (key : Key) :
    Acyclic setting sources key :=
  (hall key).choose_spec.acyclic

theorem exists_takes_of_conclude {depth : Nat} {passes : Passes}
    {result : Except TypeError Compiled}
    (hconclude : conclude (recompile setting sources depth) passes = some result) :
    ∃ steps, Takes setting sources passes steps := by
  induction depth generalizing passes result with
  | zero =>
      induction passes with
      | done value => exact ⟨1, .done⟩
      | report message next ih =>
          obtain ⟨steps, hrest⟩ := ih hconclude
          exact ⟨steps + 1, .report hrest⟩
      | ask name args next => cases hconclude
  | succ depth ihdepth =>
      induction passes with
      | done value => exact ⟨1, .done⟩
      | report message next ih =>
          obtain ⟨steps, hrest⟩ := ih hconclude
          exact ⟨steps + 1, .report hrest⟩
      | ask name args next ih =>
          obtain ⟨outcome, hcallee, hrest⟩ := Option.bind_eq_some_iff.mp hconclude
          obtain ⟨steps, hrest⟩ := ih _ hrest
          have hreturns : Returns setting sources ⟨name, args⟩ outcome := ⟨depth + 1, hcallee⟩
          unfold recompile at hcallee
          split at hcallee
          · rename_i hsource
            obtain rfl := Option.some.inj hcallee
            exact ⟨steps + 2, .unregistered hsource hrest⟩
          · rename_i source hsource
            obtain ⟨inner, hinner, _⟩ := Option.map_eq_some_iff.mp hcallee
            obtain ⟨callee, hcallee⟩ := ihdepth hinner
            exact ⟨steps + callee + 7, .registered hsource hcallee hreturns hrest⟩

theorem AllReturn.exists_concludes (hall : AllReturn setting sources) (passes : Passes) :
    ∃ result, Concludes setting sources passes result := by
  induction passes with
  | done value => exact ⟨value, concludes_done.mpr rfl⟩
  | report message next ih => exact ih
  | ask name args next ih =>
      obtain ⟨outcome, hreturns⟩ := hall ⟨name, args⟩
      obtain ⟨result, hrest⟩ := ih (answerFor outcome)
      exact ⟨result, concludes_ask.mpr ⟨outcome, hreturns, hrest⟩⟩

theorem AllReturn.exists_takes (hall : AllReturn setting sources) (passes : Passes) :
    ∃ steps, Takes setting sources passes steps := by
  obtain ⟨result, depth, hconclude⟩ := hall.exists_concludes passes
  exact exists_takes_of_conclude hconclude

theorem AllReturn.exists_owes (hall : AllReturn setting sources) {key : Key}
    {callers : List Caller} (hcallers : Suspended setting sources root key callers) :
    ∃ rest, Owes setting sources key callers rest := by
  induction hcallers with
  | request => exact ⟨0, .nil⟩
  | @uncached key next _ =>
      obtain ⟨outcome, hreturns⟩ := hall key
      obtain ⟨steps, hnext⟩ := hall.exists_takes (next (answerFor outcome))
      exact ⟨steps + 1, .uncached hreturns hnext⟩
  | @caller key claimed next callers _ _ ih =>
      obtain ⟨outcome, hreturns⟩ := hall key
      obtain ⟨steps, hnext⟩ := hall.exists_takes (next (answerFor outcome))
      obtain ⟨rest, hrest⟩ := ih
      exact ⟨steps + 3 + rest, .caller hreturns hnext hrest⟩

theorem AllReturn.exists_needs (hall : AllReturn setting sources) {thread : Thread}
    (hfollows : Follows setting sources root thread) :
    ∃ steps, Needs setting sources thread steps := by
  cases hfollows with
  | idle => exact ⟨0, .idle⟩
  | @seeking key callers hcallers =>
      obtain ⟨rest, hrest⟩ := hall.exists_owes hcallers
      cases hsource : sources.get? key.name with
      | none => exact ⟨1 + rest, .unknown hsource hrest⟩
      | some source =>
          obtain ⟨callee, hcallee⟩ := hall.exists_takes (compilation setting source key)
          exact ⟨callee + 6 + rest, .seeking hsource hcallee hrest⟩
  | @claiming key source callers hsource hcallers =>
      obtain ⟨rest, hrest⟩ := hall.exists_owes hcallers
      obtain ⟨callee, hcallee⟩ := hall.exists_takes (compilation setting source key)
      exact ⟨callee + 5 + rest, .claiming hsource hcallee hrest⟩
  | @asleep key source callers hsource hcallers =>
      obtain ⟨rest, hrest⟩ := hall.exists_owes hcallers
      obtain ⟨callee, hcallee⟩ := hall.exists_takes (compilation setting source key)
      exact ⟨callee + 5 + rest, .asleep hsource hcallee hrest⟩
  | @reading claimed source callers hsource hcallers =>
      obtain ⟨rest, hrest⟩ := hall.exists_owes hcallers
      obtain ⟨callee, hcallee⟩ := hall.exists_takes (compilation setting source claimed.key)
      exact ⟨callee + 4 + rest, .reading hsource hcallee hrest⟩
  | @running claimed passes callers _ hcallers =>
      obtain ⟨rest, hrest⟩ := hall.exists_owes hcallers
      obtain ⟨steps, hpasses⟩ := hall.exists_takes passes
      exact ⟨steps + 3 + rest, .running hpasses hrest⟩
  | settling _ hcallers =>
      obtain ⟨rest, hrest⟩ := hall.exists_owes hcallers
      exact ⟨3 + rest, .settling hrest⟩
  | releasing _ hcallers =>
      obtain ⟨rest, hrest⟩ := hall.exists_owes hcallers
      exact ⟨2 + rest, .releasing hrest⟩
  | notifying _ hcallers =>
      obtain ⟨rest, hrest⟩ := hall.exists_owes hcallers
      exact ⟨1 + rest, .notifying hrest⟩
  | @opening name signature _ =>
      cases hsource : sources.get? name with
      | none =>
          refine ⟨3, .opening fun source hsome => ?_⟩
          exact absurd (hsome.symm.trans hsource) (Option.some_ne_none source)
      | some source =>
          obtain ⟨steps, hpasses⟩ := hall.exists_takes (source.compile setting signature).run
          exact ⟨steps + 3, .opening fun other hother =>
            Option.some.inj (hsource.symm.trans hother) ▸ hpasses⟩
  | @counting source signature _ =>
      obtain ⟨steps, hpasses⟩ := hall.exists_takes (source.compile setting signature).run
      exact ⟨steps + 2, .counting hpasses⟩
  | @uncached passes _ =>
      obtain ⟨steps, hpasses⟩ := hall.exists_takes passes
      exact ⟨steps + 1, .uncached hpasses⟩
  | releasingFailed => exact ⟨_, .releasingFailed⟩
  | notifyingFailed => exact ⟨_, .notifyingFailed⟩
  | unwinding => exact ⟨_, .unwinding⟩

/-! ## Steps lower the counts -/

theorem Takes.pos {passes : Passes} {steps : Nat} (htakes : Takes setting sources passes steps) :
    0 < steps := by
  cases htakes <;> exact Nat.succ_pos _

theorem Owes.burden_le {key : Key} {callers : List Caller} {rest : Nat}
    (howes : Owes setting sources key callers rest) : burden callers ≤ rest := by
  induction howes with
  | nil => exact Nat.le.refl
  | uncached => simp [burden]
  | caller _ _ _ ih =>
      simp only [burden, Option.isSome_some, if_true]
      omega

theorem Owes.resume {key : Key} {caller : Caller} {callers : List Caller} {rest : Nat}
    {outcome : Except CompileError Compiled}
    (howes : Owes setting sources key (caller :: callers) rest)
    (hreturns : Returns setting sources key outcome) :
    Needs setting sources
      (.active (.running caller.claimed (caller.next (answerFor outcome))) callers) rest := by
  cases howes with
  | uncached hknown hnext =>
      obtain rfl := hreturns.unique hknown
      exact .uncached hnext
  | caller hknown hnext hrest =>
      obtain rfl := hreturns.unique hknown
      exact .running hnext hrest

theorem Owes.deliver {key : Key} {entry : Entry} {callers : List Caller} {rest : Nat}
    (howes : Owes setting sources key callers rest)
    (hreturns : Returns setting sources key entry.outcome) :
    Needs setting sources (deliver key (some entry) callers).1 rest := by
  cases callers with
  | nil =>
      cases howes
      exact .idle
  | cons caller callers =>
      have hresume := howes.resume hreturns
      rw [← resolution_some key entry] at hresume
      exact hresume

theorem Owes.deliverUnknown {key : Key} {callers : List Caller} {rest : Nat}
    (howes : Owes setting sources key callers rest)
    (hsource : sources.get? key.name = none) :
    Needs setting sources (deliverUnknown key callers).1 rest := by
  cases callers with
  | nil =>
      cases howes
      exact .idle
  | cons caller callers => exact howes.resume (returns_of_unregistered hsource)

theorem Needs.wake {thread : Thread} {steps : Nat} (hneeds : Needs setting sources thread steps) :
    Needs setting sources thread.wake steps := by
  unfold Thread.wake
  split
  · cases hneeds with
    | asleep hsource hcallee hrest => exact .claiming hsource hcallee hrest
  · exact hneeds

theorem Needs.panic {thread failed : Thread} {steps : Nat}
    (hneeds : Needs setting sources thread steps) (hfails : thread.panic? = some failed) :
    ∃ less < steps, Needs setting sources failed less := by
  unfold Thread.panic? at hfails
  split at hfails <;> cases hfails
  · cases hneeds with
    | running hpasses hrest =>
        have hpos := hpasses.pos
        have hburden := hrest.burden_le
        exact ⟨_, by omega, .releasingFailed⟩
  · cases hneeds with
    | uncached hpasses =>
        have hpos := hpasses.pos
        exact ⟨_, Nat.succ_lt_succ hpos, .unwinding⟩

theorem Needs.advancePasses {claimed : Option Claimed} {passes : Passes} {callers : List Caller}
    {steps : Nat}
    (hneeds : Needs setting sources (.active (.running claimed passes) callers) steps) :
    ∃ less < steps, Needs setting sources (advancePasses claimed callers passes).1 less := by
  cases hneeds with
  | @running claimed _ _ steps rest hpasses hrest =>
      cases hpasses with
      | done => exact ⟨3 + rest, by omega, .settling hrest⟩
      | report hnext => exact ⟨_, by omega, .running hnext hrest⟩
      | @unregistered name args next steps hsource hnext =>
          have hreturns : Returns setting sources ⟨name, args⟩ _ := returns_of_unregistered hsource
          exact ⟨_, by omega, .unknown hsource (.caller hreturns hnext hrest)⟩
      | registered hsource hcallee hreturns hnext =>
          exact ⟨_, by omega, .seeking hsource hcallee (.caller hreturns hnext hrest)⟩
  | @uncached _ steps hpasses =>
      cases hpasses with
      | @done result => cases result <;> exact ⟨0, by omega, .idle⟩
      | report hnext => exact ⟨_, by omega, .uncached hnext⟩
      | @unregistered name args next steps hsource hnext =>
          have hreturns : Returns setting sources ⟨name, args⟩ _ := returns_of_unregistered hsource
          exact ⟨_, by omega, .unknown hsource (.uncached hreturns hnext)⟩
      | registered hsource hcallee hreturns hnext =>
          exact ⟨_, by omega, .seeking hsource hcallee (.uncached hreturns hnext)⟩

/-- Whether a thread is about to look at a key. -/
def Thread.looks : Thread → Bool
  | .active (.claiming _) _ => true
  | _ => false

/-- A step lowers the count of its thread, or the thread looks at a key and falls asleep. -/
theorem Needs.advance {me : ThreadId} {shared : Shared} {callers : List Caller}
    {activity : Activity} {turn : Turn} {steps : Nat} (hsources : shared.sources = sources)
    (hdone : ∀ {key entry}, shared.slots.get? key = some (.done entry) →
      Returns setting sources key entry.outcome)
    (hnotified : ∀ {claimed entry}, activity = .notifying claimed (some entry) →
      Returns setting sources claimed.key entry.outcome)
    (hwaits : ∀ {key owner}, activity = .claiming key → shared.owner? key = some owner →
      ¬ shared.waitsOn owner me)
    (hneeds : Needs setting sources (.active activity callers) steps)
    (hmoves : advance setting me shared callers activity = some turn) :
    (∃ less < steps, Needs setting sources turn.thread less) ∨
      Needs setting sources turn.thread steps ∧ turn.notifies = false ∧
        (Thread.active activity callers).looks ∧ turn.thread.looks = false := by
  cases hneeds with
  | @unknown key _ rest hsource hrest =>
      simp only [Cache.advance, Shared.isRegistered, Table.contains, hsources, hsource,
        Option.isSome_none, Bool.false_eq_true, if_false, Option.some.injEq] at hmoves
      subst turn
      exact .inl ⟨rest, by omega, hrest.deliverUnknown hsource⟩
  | seeking hsource hcallee hrest =>
      simp only [Cache.advance, Shared.isRegistered, Table.contains, hsources, hsource,
        Option.isSome_some, if_true, Option.some.injEq] at hmoves
      subst turn
      exact .inl ⟨_, by omega, .claiming hsource hcallee hrest⟩
  | @claiming key _ source callee rest hsource hcallee hrest =>
      cases lookTurn_of_advance hmoves with
      | grant => exact .inl ⟨_, by omega, .reading hsource hcallee hrest⟩
      | ready hslot => exact .inl ⟨rest, by omega, hrest.deliver (hdone hslot)⟩
      | cycle hslot hcycle => exact absurd hcycle (hwaits rfl (Shared.owner?_eq_some.mpr hslot))
      | wait => exact .inr ⟨.asleep hsource hcallee hrest, rfl, rfl, rfl⟩
  | asleep => cases hmoves
  | reading hsource hcallee hrest =>
      simp only [Cache.advance, hsources, hsource, Option.some.injEq] at hmoves
      subst turn
      exact .inl ⟨_, by omega, .running hcallee hrest⟩
  | running hpasses hrest =>
      cases hmoves
      exact .inl (Needs.running hpasses hrest).advancePasses
  | settling hrest =>
      cases hmoves
      exact .inl ⟨_, by omega, .releasing hrest⟩
  | releasing hrest =>
      cases hmoves
      exact .inl ⟨_, by omega, .notifying hrest⟩
  | notifying hrest =>
      cases hmoves
      exact .inl ⟨_, by omega, hrest.deliver (hnotified rfl)⟩
  | opening hpasses =>
      simp only [Cache.advance, hsources] at hmoves
      split at hmoves <;> cases hmoves
      · exact .inl ⟨_, by omega, .counting (hpasses _ ‹_›)⟩
      · exact .inl ⟨0, by omega, .idle⟩
  | counting hpasses =>
      cases hmoves
      exact .inl ⟨_, by omega, .uncached hpasses⟩
  | uncached hpasses =>
      cases hmoves
      exact .inl (Needs.uncached hpasses).advancePasses
  | releasingFailed =>
      cases hmoves
      exact .inl ⟨_, by omega, .notifyingFailed⟩
  | notifyingFailed =>
      cases hmoves
      exact .inl ⟨_, by omega, .unwinding⟩
  | unwinding =>
      rcases callers with _ | ⟨⟨_ | claimed, next⟩, callers⟩ <;> cases hmoves
      · exact .inl ⟨0, Nat.succ_pos _, .idle⟩
      · refine .inl ⟨_, ?_, .unwinding⟩
        simp [burden]
      · refine .inl ⟨_, ?_, .releasingFailed⟩
        simp only [burden, Option.isSome_some, if_true]
        omega

/-! ## Steps of a world -/

/-- A thread goes on with the request that it serves, or a pass fails. -/
inductive GoesOn (setting : Inference.Setting) (world : World) : World → Prop where
  | advance {me : ThreadId} {activity : Activity} {callers : List Caller} {turn : Turn}
      (busy : world.threads me = .active activity callers)
      (moves : advance setting me world.shared callers activity = some turn) :
      GoesOn setting world (world.afterTurn me turn)
  | panic {me : ThreadId} {thread : Thread} (fails : (world.threads me).panic? = some thread) :
      GoesOn setting world (world.setThread me thread)

theorem GoesOn.step {world next : World} (hnext : GoesOn setting world next) :
    ∃ me events, world.threads me ≠ .idle ∧ Step setting world me events next := by
  cases hnext with
  | @advance me _ _ _ busy moves => exact ⟨me, _, by simp [busy], .advance busy moves⟩
  | @panic me _ fails =>
      refine ⟨me, _, ?_, .panic fails⟩
      intro hidle
      simp [hidle, Thread.panic?] at fails

/-- Only threads below the bound are busy. -/
def World.BusyBelow (world : World) (bound : Nat) : Prop :=
  ∀ thread, bound ≤ thread → world.threads thread = .idle

theorem Reachable.exists_busyBelow {world : World} (hreach : Reachable setting world) :
    ∃ bound, world.BusyBelow bound := by
  refine hreach.invariant (fun world => ∃ bound, world.BusyBelow bound) ⟨0, fun _ _ => rfl⟩ ?_
  rintro before after me events _ ⟨bound, hbound⟩ hstep
  refine ⟨max bound (me + 1), fun thread hle => ?_⟩
  have hne : thread ≠ me := by omega
  exact hstep.idle_of_ne hne (hbound thread (le_of_max_le_left hle))

/-- How many of the threads below a bound are about to look at a key. -/
def World.lookers (world : World) (bound : Nat) : Nat :=
  ((Finset.range bound).filter fun thread => (world.threads thread).looks).card

theorem World.lookers_le (world : World) (bound : Nat) : world.lookers bound ≤ bound := by
  simpa [lookers] using Finset.card_filter_le (Finset.range bound) _

/-- A step that lowers the count of one thread lowers the sum. -/
theorem sum_update_lt {costs : ThreadId → Nat} {bound me less : Nat} (hme : me < bound)
    (hless : less < costs me) :
    ∑ thread ∈ Finset.range bound, Function.update costs me less thread <
      ∑ thread ∈ Finset.range bound, costs thread := by
  refine Finset.sum_lt_sum (fun thread _ => ?_) ⟨me, Finset.mem_range.mpr hme, by simpa using hless⟩
  by_cases hthread : thread = me
  · subst hthread
    simpa using Nat.le_of_lt hless
  · rw [Function.update_of_ne hthread]

section Descent

variable {roots : ThreadId → Option Key} {world next : World} {bound : Nat}
  {costs : ThreadId → Nat}

theorem GoesOn.faithful (hfaithful : world.Faithful setting sources roots)
    (hreach : Reachable setting world) (hnext : GoesOn setting world next) :
    next.Faithful setting sources roots := by
  obtain ⟨me, events, hbusy, hstep⟩ := hnext.step
  obtain ⟨_, _, hidle, _⟩ | ⟨_, hcontinues⟩ := hfaithful.continues hreach hstep
  · exact absurd hidle hbusy
  · exact hfaithful.step hreach hstep (fun _ _ => rfl) hcontinues.follows

theorem GoesOn.busyBelow (hbound : world.BusyBelow bound) (hnext : GoesOn setting world next) :
    next.BusyBelow bound := by
  intro thread hle
  have hidle := hbound thread hle
  obtain ⟨me, events, hbusy, hstep⟩ := hnext.step
  refine hstep.idle_of_ne ?_ hidle
  rintro rfl
  exact hbusy hidle

/-- Steps of others leave the count of a thread as it is. -/
theorem Step.needs_of_ne {me other : ThreadId} {events : List Event} {steps : Nat}
    (hstep : Step setting world me events next) (hne : other ≠ me)
    (hneeds : Needs setting sources (world.threads other) steps) :
    Needs setting sources (next.threads other) steps := by
  obtain hsame | hwoken := hstep.thread_of_ne hne
  · exact hsame ▸ hneeds
  · exact hwoken ▸ hneeds.wake

/-- The counts of all threads after a step that lowered one. -/
theorem Step.needs_update {me : ThreadId} {events : List Event} {less : Nat}
    (hstep : Step setting world me events next)
    (hcosts : ∀ thread, Needs setting sources (world.threads thread) (costs thread))
    (hneeds : Needs setting sources (next.threads me) less) (thread : ThreadId) :
    Needs setting sources (next.threads thread) (Function.update costs me less thread) := by
  by_cases hme : thread = me
  · subst hme
    simpa using hneeds
  · rw [Function.update_of_ne hme]
    exact hstep.needs_of_ne hme (hcosts thread)

/-- With every step the sum of the counts gets smaller, or it stays the same while one thread less
is about to look at a key. -/
theorem GoesOn.descends (hall : AllReturn setting sources)
    (hfaithful : world.Faithful setting sources roots) (hreach : Reachable setting world)
    (hbound : world.BusyBelow bound)
    (hcosts : ∀ thread, Needs setting sources (world.threads thread) (costs thread))
    (hnext : GoesOn setting world next) :
    ∃ after : ThreadId → Nat,
      (∀ thread, Needs setting sources (next.threads thread) (after thread)) ∧
        (∑ thread ∈ Finset.range bound, after thread <
            ∑ thread ∈ Finset.range bound, costs thread ∨
          after = costs ∧ next.lookers bound < world.lookers bound) := by
  have hbelow : ∀ {me}, world.threads me ≠ .idle → me < bound := by
    intro me hbusy
    by_contra hle
    exact hbusy (hbound me (Nat.le_of_not_lt hle))
  cases hnext with
  | @advance me activity callers turn busy moves =>
      have hstep := Step.advance busy moves
      have hme : me < bound := hbelow (by simp [busy])
      have hneeds := hcosts me
      have hfollows := hfaithful.follows me
      rw [busy] at hneeds hfollows
      obtain ⟨less, hless, hthread⟩ | ⟨hthread, hquiet, hlooks, hawake⟩ :=
        hneeds.advance hfaithful.source (fun hdone => hfaithful.done hdone (hall.acyclic _))
          (fun {claimed entry} hnotifying => by
            subst hnotifying
            cases hfollows with
            | notifying hentry _ => exact hentry (hall.acyclic _))
          (fun {key owner} hclaiming howner => hfaithful.not_waitsOn hreach howner
            (by rw [busy, hclaiming]; rfl) (hall.acyclic key)) moves
      · refine ⟨_, hstep.needs_update hcosts ?_, .inl (sum_update_lt hme hless)⟩
        rw [World.afterTurn_threads]
        simp only [if_true]
        split
        · exact hthread.wake
        · exact hthread
      · have hself : (world.afterTurn me turn).threads me = turn.thread := by
          simp [World.afterTurn_threads, hquiet]
        have hother : ∀ thread, thread ≠ me →
            (world.afterTurn me turn).threads thread = world.threads thread := by
          intro thread hne
          simp [World.afterTurn_threads, hquiet, hne]
        refine ⟨costs, fun thread => ?_, .inr ⟨rfl, ?_⟩⟩
        · by_cases hsame : thread = me
          · subst hsame
            exact hself ▸ hthread
          · exact hother thread hsame ▸ hcosts thread
        · refine Finset.card_lt_card (Finset.ssubset_iff_of_subset ?_ |>.mpr ⟨me, ?_, ?_⟩)
          · intro thread hmem
            obtain ⟨hrange, hlooking⟩ := Finset.mem_filter.mp hmem
            by_cases hsame : thread = me
            · subst hsame
              rw [hself, hawake] at hlooking
              cases hlooking
            · exact Finset.mem_filter.mpr ⟨hrange, hother thread hsame ▸ hlooking⟩
          · rw [← busy] at hlooks
            exact Finset.mem_filter.mpr ⟨Finset.mem_range.mpr hme, hlooks⟩
          · intro hmem
            have hlooking := (Finset.mem_filter.mp hmem).2
            rw [hself, hawake] at hlooking
            cases hlooking
  | @panic me thread fails =>
      have hme : me < bound := hbelow fun hidle => by simp [hidle, Thread.panic?] at fails
      obtain ⟨less, hless, hthread⟩ := (hcosts me).panic fails
      refine ⟨_, (Step.panic fails).needs_update hcosts ?_, .inl (sum_update_lt hme hless)⟩
      simpa [World.setThread] using hthread

/-- Threads that are left alone come to rest, whatever the order of their steps. -/
theorem World.Faithful.acc (hall : AllReturn setting sources)
    (hfaithful : world.Faithful setting sources roots) (hreach : Reachable setting world) :
    Acc (fun after before => GoesOn setting before after) world := by
  obtain ⟨bound, hbound⟩ := hreach.exists_busyBelow
  have hcosts : ∀ thread, ∃ cost, Needs setting sources (world.threads thread) cost :=
    fun thread => hall.exists_needs (hfaithful.follows thread)
  choose costs hcosts using hcosts
  -- One step of the sum outweighs all threads that may have to look at their keys again.
  generalize heffort : (∑ thread ∈ Finset.range bound, costs thread) * (bound + 1) +
    world.lookers bound = effort
  induction effort using Nat.strongRecOn generalizing world costs with
  | ind effort ih =>
      refine ⟨world, fun next hnext => ?_⟩
      obtain ⟨step, events, hbusy, hstep⟩ := hnext.step
      obtain ⟨after, hafter, hlower⟩ := hnext.descends hall hfaithful hreach hbound hcosts
      refine ih _ ?_ (hnext.faithful hfaithful hreach) (hreach.step hstep)
        (hnext.busyBelow hbound) after hafter rfl
      subst heffort
      have hlookers := next.lookers_le bound
      obtain hless | ⟨rfl, hfewer⟩ := hlower
      · have hweight := Nat.mul_le_mul_right (bound + 1) (Nat.succ_le_of_lt hless)
        rw [Nat.succ_mul] at hweight
        omega
      · exact Nat.add_lt_add_left hfewer _

end Descent

/-! ## Rest -/

/-- Where no thread can go on, every thread is at rest. -/
theorem Reachable.idle_of_not_goesOn {world : World} (hreach : Reachable setting world)
    (hstuck : ∀ next, ¬ GoesOn setting world next) (thread : ThreadId) :
    world.threads thread = .idle := by
  have hasleep : ∀ thread, world.threads thread ≠ .idle →
      ∃ key, world.shared.waiting.get? thread = some key ∧ (world.threads thread).Asleep key := by
    intro thread hbusy
    by_contra hawake
    have hawake : ∀ key, ¬ (world.threads thread).Asleep key := fun key hsleeps =>
      hawake ⟨key, hreach.attentive.recorded hsleeps, hsleeps⟩
    obtain ⟨activity, callers, turn, hthread, hmoves⟩ := World.canAdvance hbusy hawake
    exact hstuck _ (.advance hthread hmoves)
  by_contra hbusy
  obtain ⟨rank, hranks⟩ := hreach.attentive.ranks
  obtain ⟨last, hpath, hlast⟩ := hranks.exists_last thread
  -- The last thread of the chain of waits is busy, so it sleeps on a key that nobody owns.
  have hlastBusy : world.threads last ≠ .idle := by
    obtain rfl | ⟨before, _, owned, _, howner⟩ := Relation.ReflTransGen.cases_tail hpath
    · exact hbusy
    · intro hidle
      obtain ⟨frame, hframe, _⟩ := hreach.owned last owned howner
      rw [hidle] at hframe
      cases hframe
  obtain ⟨key, hwaits, hsleeps⟩ := hasleep last hlastBusy
  have hfree : world.shared.owner? key = none := by
    cases howner : world.shared.owner? key with
    | none => rfl
    | some owner => exact absurd ⟨key, hwaits, howner⟩ (hlast owner)
  obtain ⟨waker, hwaker⟩ := hreach.attentive.waker hsleeps hfree
  have hwakerBusy : world.threads waker ≠ .idle := by
    intro hidle
    simp [hidle, Thread.wakesIn?] at hwaker
  obtain ⟨other, _, hother⟩ := hasleep waker hwakerBusy
  simp [hother.wakesIn?] at hwaker

end KernelFront.Cache
