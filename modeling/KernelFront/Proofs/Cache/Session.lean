import KernelFront.Cache.Session
import KernelFront.Proofs.Cache.Steps
import KernelFront.Proofs.Cache.Ownership
import Mathlib.Logic.Relation

/-! # Sessions in steps

A session is a thread that uses a cache alone. It never sleeps, since a key that is being compiled
is compiled by itself. A request for a key either comes to an end, or it leads into another request,
made while the key is being compiled, which does not come to an end either: `ends_or_nests`.
-/

namespace KernelFront.Cache

/-- A key has to be compiled when it is asked for: its function is registered, and it has no
slot. -/
structure Shared.Lacks (shared : Shared) (key : Key) : Prop where
  registered : shared.isRegistered key.name = true
  slot : shared.slots.get? key = none

/-- A session between two steps, with what was seen of it, the latest event first. -/
structure Session where
  shared : Shared
  thread : Thread
  seen : List Event

namespace Session

variable (setting : Inference.Setting)

/-- One step of a session. -/
inductive Next : Session → Session → Prop where
  | advance {shared : Shared} {activity : Activity} {callers : List Caller} {seen : List Event}
      {turn : Turn}
      (moves : Cache.advance setting sessionThread shared callers activity = some turn) :
      Next ⟨shared, .active activity callers, seen⟩
        ⟨turn.shared, turn.thread, turn.events.reverse ++ seen⟩

/-- Any number of steps of a session. -/
abbrev Steps : Session → Session → Prop := Relation.ReflTransGen (Next setting)

/-- The session that begins to serve a request. -/
def start (shared : Shared) (request : Request) : Session := ⟨shared, .start request, []⟩

variable {setting}

theorem steps_of_moves {shared : Shared} {activity : Activity} {callers : List Caller}
    {seen : List Event} {turn : Turn} {last : Session}
    (hmoves : Cache.advance setting sessionThread shared callers activity = some turn)
    (hlast : ⟨turn.shared, turn.thread, turn.events.reverse ++ seen⟩ = last) :
    Steps setting ⟨shared, .active activity callers, seen⟩ last := by
  subst hlast
  exact .single (.advance hmoves)

/-! ## Steps and bounded runs -/

theorem exists_runThread {session last : Session} (hsteps : Steps setting session last)
    (hidle : last.thread = .idle) :
    ∃ steps, runThread setting steps session.shared session.thread session.seen =
      some (last.shared, last.seen) := by
  induction hsteps using Relation.ReflTransGen.head_induction_on with
  | refl =>
      refine ⟨0, ?_⟩
      rw [hidle]
      rfl
  | head hnext _ ih =>
      obtain ⟨moves⟩ := hnext
      obtain ⟨steps, hrun⟩ := ih
      refine ⟨steps + 1, ?_⟩
      rw [runThread, moves]
      exact hrun

theorem depth_deliver (key : Key) (outcome : Option Entry) (callers : List Caller) :
    (deliver key outcome callers).1.depth ≤ callers.length := by
  cases callers with
  | nil => exact Nat.le_refl 0
  | cons caller callers => exact Nat.le_succ _

/-- A step makes at most one more compilation wait. -/
theorem depth_advance {me : ThreadId} {shared : Shared} {callers : List Caller}
    {activity : Activity} {turn : Turn}
    (hmoves : Cache.advance setting me shared callers activity = some turn) :
    turn.thread.depth ≤ callers.length + 1 := by
  have hdeliver (key : Key) (outcome : Option Entry) :
      (deliver key outcome callers).1.depth ≤ callers.length + 1 :=
    Nat.le_succ_of_le (depth_deliver key outcome callers)
  cases activity with
  | asleep => cases hmoves
  | seeking key =>
      simp only [Cache.advance] at hmoves
      split at hmoves <;> cases hmoves
      · exact Nat.le_succ _
      · cases callers with
        | nil => exact Nat.zero_le _
        | cons caller callers => exact Nat.le_succ_of_le (Nat.le_succ _)
  | claiming key =>
      simp only [Cache.advance] at hmoves
      split at hmoves <;> cases hmoves
      · exact hdeliver _ _
      · exact hdeliver _ _
      · exact Nat.le_succ _
      · exact Nat.le_succ _
  | notifying claimed outcome =>
      cases outcome with
      | none =>
          cases hmoves
          exact Nat.le_succ _
      | some entry =>
          cases hmoves
          exact hdeliver _ _
  | running claimed passes =>
      cases hmoves
      cases passes with
      | report => exact Nat.le_succ _
      | ask => exact Nat.le_refl _
      | done result =>
          cases claimed with
          | none => cases result <;> exact Nat.zero_le _
          | some claimed => exact Nat.le_succ _
  | replacing func =>
      cases hmoves
      simp only
      split <;> simp [Thread.depth]
  | recording name discarded =>
      simp only [Cache.advance] at hmoves
      split at hmoves <;> cases hmoves <;> exact Nat.zero_le _
  | «opening» name signature =>
      simp only [Cache.advance] at hmoves
      split at hmoves <;> cases hmoves
      · exact Nat.le_succ _
      · exact Nat.zero_le _
  | unwinding =>
      rcases callers with _ | ⟨⟨_ | claimed, next⟩, callers⟩ <;> cases hmoves
      · exact Nat.zero_le _
      · exact Nat.le_succ_of_le (Nat.le_succ _)
      · exact Nat.le_succ_of_le (Nat.le_succ _)
  | _ =>
      cases hmoves
      exact Nat.le_succ _

/-- Within a number of steps no more than so many compilations are made to wait. -/
theorem depth_le_of_runThread {session last : Session} (hsteps : Steps setting session last)
    {steps : Nat} {result : Shared × List Event}
    (hrun : runThread setting steps session.shared session.thread session.seen = some result) :
    last.thread.depth ≤ session.thread.depth + steps := by
  induction hsteps using Relation.ReflTransGen.head_induction_on generalizing steps with
  | refl => exact Nat.le_add_right _ _
  | head hnext _ ih =>
      obtain ⟨moves⟩ := hnext
      cases steps with
      | zero => cases hrun
      | succ steps =>
          rw [runThread, moves] at hrun
          have hlater := ih hrun
          have hnow := depth_advance moves
          simp only [Thread.depth] at hnow hlater ⊢
          omega

/-! ## Requests that end and requests that nest -/

/-- The session compiles these keys, and no other key is being compiled. -/
def Owns (shared : Shared) (keys : List Key) : Prop :=
  ∀ key, shared.owner? key = if key ∈ keys then some sessionThread else none

/-- The compilation that asked for a key goes on or, if none did, the requester got a reply. -/
def Answered (session : Session) : List Caller → Prop
  | [] => session.thread = .idle ∧ ∃ reply, .replied reply ∈ session.seen
  | caller :: callers =>
      ∃ answer, session.thread = .active (.running caller.claimed (caller.next answer)) callers

/-- The session comes to the point where whoever asked for a key is answered. -/
def Ends (setting : Inference.Setting) (session : Session) (callers : List Caller)
    (keys : List Key) : Prop :=
  ∃ last, Steps setting session last ∧ last.Answered callers ∧ Owns last.shared keys

/-- The session asks for a key while it compiles others. -/
structure Seeks (session : Session) (key : Key) (callers : List Caller) (keys : List Key) :
    Prop where
  thread : session.thread = .active (.seeking key) callers
  owns : Owns session.shared keys

variable {shared : Shared} {callers : List Caller} {keys : List Key} {key : Key}
  {seen : List Event} {claimed : Claimed}

theorem Ends.of_steps {session middle : Session} (hsteps : Steps setting session middle)
    (hends : middle.Ends setting callers keys) : session.Ends setting callers keys := by
  obtain ⟨last, hlast, hanswered, howns⟩ := hends
  exact ⟨last, hsteps.trans hlast, hanswered, howns⟩

namespace Owns

theorem congr {other : Shared} (howns : Owns shared keys)
    (hslots : other.slots = shared.slots) : Owns other keys := by
  intro key
  rw [Shared.owner?_congr hslots, howns key]

theorem claim (howns : Owns shared keys) (hslot : shared.slots.get? key = none) :
    Owns (shared.claim sessionThread key).2 (key :: keys) := by
  intro other
  simp only [Shared.claim, hslot, Shared.owner?, Table.get?_insert]
  by_cases hkey : other = key
  · rw [if_pos hkey, hkey, if_pos List.mem_cons_self]
  · rw [if_neg hkey]
    simp only [List.mem_cons, hkey, false_or]
    exact howns other

/-- What is being compiled has a slot. -/
theorem not_mem (howns : Owns shared keys) (hslot : shared.slots.get? key = none) :
    key ∉ keys := by
  intro hkey
  have hflight := howns key
  rw [if_pos hkey, Shared.owner?_eq_some, hslot] at hflight
  cases hflight

theorem settle (howns : Owns shared (key :: keys)) (hfree : key ∉ keys) (entry : Entry) :
    Owns (shared.settle sessionThread key entry) keys := by
  have hmine : shared.owner? key = some sessionThread := by
    rw [howns, if_pos List.mem_cons_self]
  intro other
  by_cases hkey : other = key
  · subst hkey
    rw [if_neg hfree, Shared.owner?, Shared.get?_settle, if_pos ⟨rfl, hmine⟩]
  · have hsame : (shared.settle sessionThread key entry).owner? other = shared.owner? other := by
      rw [Shared.owner?, Shared.get?_settle, if_neg fun hboth => hkey hboth.1]
      rfl
    rw [hsame, howns]
    simp only [List.mem_cons, hkey, false_or]

end Owns

theorem answered_deliver (key : Key) (outcome : Option Entry) :
    Answered ⟨shared, (deliver key outcome callers).1,
      (deliver key outcome callers).2.reverse ++ seen⟩ callers := by
  cases callers with
  | nil => exact ⟨rfl, _, List.mem_cons_self⟩
  | cons caller callers => exact ⟨_, rfl⟩

theorem answered_deliverUnknown (key : Key) :
    Answered ⟨shared, (deliverUnknown key callers).1,
      (deliverUnknown key callers).2.reverse ++ seen⟩ callers := by
  cases callers with
  | nil => exact ⟨rfl, _, List.mem_cons_self⟩
  | cons caller callers => exact ⟨_, rfl⟩

/-- A key that is settled is released, and its outcome is delivered. -/
theorem ends_settling {entry : Entry} (howns : Owns shared (claimed.key :: keys))
    (hfree : claimed.key ∉ keys) :
    Ends setting ⟨shared, .active (.settling claimed entry) callers, seen⟩ callers keys := by
  have hsettled := howns.settle hfree entry
  have hsteps : Steps setting ⟨shared, .active (.settling claimed entry) callers, seen⟩
      ⟨shared.settle sessionThread claimed.key entry,
        .active (.notifying claimed (some entry)) callers, seen⟩ := by
    -- It was settled, so there is nothing left to give up.
    have hreleased : (shared.settle sessionThread claimed.key entry).release sessionThread
        claimed.key = shared.settle sessionThread claimed.key entry := by
      unfold Shared.release
      rw [hsettled, if_neg hfree, if_neg (Option.some_ne_none _).symm]
    refine .trans (steps_of_moves rfl rfl) (steps_of_moves rfl ?_)
    simp only [hreleased]
    rfl
  exact .of_steps hsteps ⟨_, .single (.advance rfl), answered_deliver _ _, hsettled⟩

/-- The session asks for a key on behalf of the compilation of another one, and whoever asked for it
is never answered. -/
structure Nests (setting : Inference.Setting) (session : Session) (key : Key)
    (callers : List Caller) (keys : List Key) (child : Session) (callee : Key) (caller : Caller) :
    Prop where
  steps : Steps setting session child
  claimed : caller.claimed.map Claimed.key = some key
  seeks : child.Seeks callee (caller :: callers) (key :: keys)
  endless : ¬ child.Ends setting (caller :: callers) (key :: keys)

theorem Nests.of_steps {session middle child : Session} {callee : Key} {caller : Caller}
    (hsteps : Steps setting session middle)
    (hnests : middle.Nests setting key callers keys child callee caller) :
    session.Nests setting key callers keys child callee caller :=
  { hnests with steps := hsteps.trans hnests.steps }

/-- A compilation comes to an end unless one that it asks for does not. -/
theorem running_ends_or_nests (claimed : Claimed) (passes : Passes)
    (howns : Owns shared (claimed.key :: keys)) (hfree : claimed.key ∉ keys) :
    Ends setting ⟨shared, .active (.running (some claimed) passes) callers, seen⟩ callers keys ∨
      ∃ child callee caller,
        Nests setting ⟨shared, .active (.running (some claimed) passes) callers, seen⟩ claimed.key
          callers keys child callee caller := by
  -- The induction is on what is left of the compilation: after an answer it goes on from there.
  induction passes generalizing shared seen with
  | done result =>
      left
      exact .of_steps (.single (.advance rfl)) (ends_settling howns hfree)
  | report message next ih =>
      have hstep : Steps setting
          ⟨shared, .active (.running (some claimed) (.report message next)) callers, seen⟩
          ⟨shared, .active (.running (some claimed) next) callers, .log message :: seen⟩ :=
        steps_of_moves rfl rfl
      obtain hends | ⟨child, callee, caller, hnests⟩ := ih howns
      · exact .inl (.of_steps hstep hends)
      · exact .inr ⟨child, callee, caller, hnests.of_steps hstep⟩
  | ask callee args next ih =>
      let caller : Caller := ⟨some claimed, next⟩
      let child : Session :=
        ⟨shared, .active (.seeking ⟨callee, args⟩) (caller :: callers), seen⟩
      have hstep : Steps setting
          ⟨shared, .active (.running (some claimed) (.ask callee args next)) callers, seen⟩ child :=
        steps_of_moves rfl rfl
      by_cases hends : child.Ends setting (caller :: callers) (claimed.key :: keys)
      · obtain ⟨⟨shared', thread, seen'⟩, hlast, ⟨answer, hanswered⟩, howns'⟩ := hends
        cases hanswered
        have hsteps := hstep.trans hlast
        obtain hends | ⟨child, callee, caller, hnests⟩ := ih answer howns'
        · exact .inl (.of_steps hsteps hends)
        · exact .inr ⟨child, callee, caller, hnests.of_steps hsteps⟩
      · exact .inr ⟨child, _, caller, hstep, rfl, ⟨rfl, howns⟩, hends⟩

/-- The first question of a compilation. -/
def firstQuestion? : Passes → Option Key
  | .done _ => none
  | .report _ next => firstQuestion? next
  | .ask callee args _ => some ⟨callee, args⟩

/-- Whatever was reported before, the first question is asked. -/
theorem steps_running {claimed : Option Claimed} {passes : Passes}
    (hquestion : firstQuestion? passes = some key) :
    ∃ next later, Steps setting ⟨shared, .active (.running claimed passes) callers, seen⟩
      ⟨shared, .active (.seeking key) (⟨claimed, next⟩ :: callers), later⟩ := by
  induction passes generalizing seen with
  | done result => cases hquestion
  | report message next ih =>
      obtain ⟨answered, later, hsteps⟩ := @ih (.log message :: seen) hquestion
      exact ⟨answered, later, .trans (steps_of_moves rfl rfl) hsteps⟩
  | ask callee args next =>
      cases hquestion
      exact ⟨next, _, steps_of_moves rfl rfl⟩

theorem steps_seeking (hregistered : shared.isRegistered key.name = true) :
    Steps setting ⟨shared, .active (.seeking key) callers, seen⟩
      ⟨shared, .active (.claiming key) callers, seen⟩ := by
  have hmoves : Cache.advance setting sessionThread shared callers (.seeking key) = some
      { thread := .active (.claiming key) callers, shared } := by
    simp only [Cache.advance, hregistered, if_true]
  exact steps_of_moves hmoves rfl

/-- A key without a slot is claimed and compiled. -/
theorem steps_claiming {source : FunctionDef} (hslot : shared.slots.get? key = none)
    (hsource : shared.sources.get? key.name = some source) :
    ∃ later, Steps setting ⟨shared, .active (.claiming key) callers, seen⟩
      ⟨(shared.claim sessionThread key).2,
        .active (.running (some ⟨key, shared.compiles + 1⟩)
          (source.compile setting ⟨key.args, none⟩).run) callers, later⟩ := by
  have hclaim : Cache.advance setting sessionThread shared callers (.claiming key) = some
      { thread := .active (.reading ⟨key, shared.compiles + 1⟩) callers
        shared := (shared.claim sessionThread key).2
        events := [.claimed key] } := by
    simp only [Cache.advance, Shared.claim, hslot]
    rfl
  have hsame : (shared.claim sessionThread key).2.sources.get? key.name = some source := by
    rw [Shared.claim, hslot]
    exact hsource
  have hread : Cache.advance setting sessionThread (shared.claim sessionThread key).2 callers
      (.reading ⟨key, shared.compiles + 1⟩) = some
        { thread := .active (.running (some ⟨key, shared.compiles + 1⟩)
            (source.compile setting ⟨key.args, none⟩).run) callers
          shared := (shared.claim sessionThread key).2
          events := [.log ⟨.debug, "[cache] miss for " ++ key.text⟩] } := by
    simp only [Cache.advance, hsame]
  exact ⟨_, (steps_of_moves hclaim rfl).trans (steps_of_moves hread rfl)⟩

/-- A key that has a slot is answered for at once. To wait for it would be to wait for itself. -/
theorem ends_claiming {slot : Slot} (howns : Owns shared keys)
    (hslot : shared.slots.get? key = some slot) :
    Ends setting ⟨shared, .active (.claiming key) callers, seen⟩ callers keys := by
  cases slot with
  | done entry =>
      have hmoves : Cache.advance setting sessionThread shared callers (.claiming key) = some
          { thread := (deliver key (some entry) callers).1
            shared := shared.stopWaiting sessionThread
            events := (deliver key (some entry) callers).2 } := by
        simp only [Cache.advance, Shared.claim, hslot]
      exact ⟨_, .single (.advance hmoves), answered_deliver _ _, howns.congr rfl⟩
  | inFlight owner =>
      have howner : owner = sessionThread := by
        have hkey := howns key
        rw [Shared.owner?_eq_some.mpr hslot] at hkey
        split at hkey <;> cases hkey
        rfl
      have hwaits : shared.waitsOn owner sessionThread = true := by
        rw [howner, Shared.waitsOn, Shared.blockedWithin, if_pos rfl]
      have hmoves : Cache.advance setting sessionThread shared callers (.claiming key) = some
          { thread := (deliver key none callers).1
            shared := shared.stopWaiting sessionThread
            events := (deliver key none callers).2 } := by
        simp only [Cache.advance, Shared.claim, hslot, hwaits, if_true]
      exact ⟨_, .single (.advance hmoves), answered_deliver _ _, howns.congr rfl⟩

/-- A request comes to an end, or the key has to be compiled and its compilation leads to a request
that does not. -/
theorem Seeks.ends_or_nests (setting : Inference.Setting) {session : Session}
    (hseeks : session.Seeks key callers keys) :
    session.Ends setting callers keys ∨
      session.shared.Lacks key ∧ ∃ child callee caller,
        session.Nests setting key callers keys child callee caller := by
  obtain ⟨shared, thread, seen⟩ := session
  obtain ⟨rfl, howns⟩ := hseeks
  cases hregistered : shared.isRegistered key.name with
  | false =>
      left
      have hmoves : Cache.advance setting sessionThread shared callers (.seeking key) = some
          { thread := (deliverUnknown key callers).1
            shared := shared
            events := (deliverUnknown key callers).2 } := by
        simp only [Cache.advance, hregistered]
        rfl
      exact ⟨_, .single (.advance hmoves), answered_deliverUnknown _, howns⟩
  | true =>
      have hseeking := @steps_seeking setting shared callers key seen hregistered
      cases hslot : shared.slots.get? key with
      | some slot => exact .inl (.of_steps hseeking (ends_claiming howns hslot))
      | none =>
          obtain ⟨source, hsource⟩ := Option.isSome_iff_exists.mp hregistered
          obtain ⟨later, hclaiming⟩ := @steps_claiming setting shared callers key seen source hslot
            hsource
          have hsteps := hseeking.trans hclaiming
          obtain hends | ⟨child, callee, caller, hnests⟩ :=
            running_ends_or_nests ⟨key, shared.compiles + 1⟩
              (source.compile setting ⟨key.args, none⟩).run (howns.claim hslot)
              (howns.not_mem hslot)
          · exact .inl (.of_steps hsteps hends)
          · exact .inr ⟨⟨hregistered, hslot⟩, child, callee, caller, hnests.of_steps hsteps⟩

end Session

end KernelFront.Cache
