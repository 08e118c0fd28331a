import KernelFront.Host.Imports
import KernelFront.Proofs.Cache.Ownership

/-! # Schedules

A schedule says which thread moves next. The world it leads to can be computed and looked at, and
every schedule that can be followed is a run.
-/

namespace KernelFront.Cache

variable {setting : Inference.Setting}

/-- The setting of a host with the usual imports. -/
def usualSetting : Inference.Setting := { names := Host.Imports.standard.toNamespace }

/-- Let a thread begin to serve a request or, without one, go on with what it does. -/
def World.move? (setting : Inference.Setting) (world : World) (me : ThreadId) :
    Option Request → Option World
  | some request =>
      match world.threads me with
      | .idle => some (world.setThread me (.start request))
      | .active _ _ => none
  | none =>
      match world.threads me with
      | .idle => none
      | .active activity callers =>
          (advance setting me world.shared callers activity).map (world.afterTurn me)

/-- What a move of a thread shows. -/
def World.shown (setting : Inference.Setting) (world : World) (me : ThreadId) :
    Option Request → List Event
  | some request => [.begun request]
  | none =>
      match world.threads me with
      | .idle => []
      | .active activity callers =>
          ((advance setting me world.shared callers activity).map Turn.events).getD []

/-- Follow a schedule. -/
def World.follow? (setting : Inference.Setting) (world : World) :
    List (ThreadId × Option Request) → Option World
  | [] => some world
  | (me, request) :: schedule =>
      (world.move? setting me request).bind fun next => next.follow? setting schedule

/-- What can be seen while a schedule is followed. -/
def World.seen (setting : Inference.Setting) (world : World) :
    List (ThreadId × Option Request) → List (ThreadId × Event)
  | [] => []
  | (me, request) :: schedule =>
      match world.move? setting me request with
      | none => []
      | some next =>
          ((world.shown setting me request).map fun event => (me, event)) ++
            next.seen setting schedule

/-- Let a thread move a number of times. -/
def moves (me : ThreadId) (steps : Nat) : List (ThreadId × Option Request) :=
  List.replicate steps (me, none)

theorem World.move?_shown {world next : World} {me : ThreadId} {request : Option Request}
    (hmove : world.move? setting me request = some next) :
    Step setting world me (world.shown setting me request) next := by
  cases request with
  | some request =>
      cases hthread : world.threads me with
      | idle =>
          simp only [move?, hthread, Option.some.injEq] at hmove
          subst hmove
          exact .begin request hthread
      | active activity callers => simp [move?, hthread] at hmove
  | none =>
      cases hthread : world.threads me with
      | idle => simp [move?, hthread] at hmove
      | active activity callers =>
          simp only [move?, hthread, Option.map_eq_some_iff] at hmove
          obtain ⟨turn, hturn, rfl⟩ := hmove
          simp only [shown, hthread, hturn, Option.map_some, Option.getD_some]
          exact .advance hthread hturn

theorem World.move?_step {world next : World} {me : ThreadId} {request : Option Request}
    (hmove : world.move? setting me request = some next) :
    ∃ events, Step setting world me events next :=
  ⟨_, move?_shown hmove⟩

theorem Run.append {start middle world : World} {seen later : List (ThreadId × Event)}
    (hfirst : Run setting start seen middle) (hsecond : Run setting middle later world) :
    Run setting start (seen ++ later) world := by
  induction hsecond with
  | nil => simpa using hfirst
  | step _ next ih => simpa [List.append_assoc] using ih.step next

theorem World.follow?_seen {world next : World} {schedule : List (ThreadId × Option Request)}
    (hfollow : world.follow? setting schedule = some next) :
    Run setting world (world.seen setting schedule) next := by
  induction schedule generalizing world with
  | nil => exact Option.some.inj hfollow ▸ .nil
  | cons head schedule ih =>
      obtain ⟨me, request⟩ := head
      simp only [follow?, Option.bind_eq_some_iff] at hfollow
      obtain ⟨middle, hmove, hrest⟩ := hfollow
      simp only [seen, hmove]
      have hfirst := Run.nil.step (move?_shown hmove)
      rw [List.nil_append] at hfirst
      exact hfirst.append (ih hrest)

theorem World.follow?_run {world next : World} {schedule : List (ThreadId × Option Request)}
    (hfollow : world.follow? setting schedule = some next) :
    ∃ seen, Run setting world seen next :=
  ⟨_, follow?_seen hfollow⟩

theorem World.follow?_reachable {world next : World} {schedule : List (ThreadId × Option Request)}
    (hreach : Reachable setting world) (hfollow : world.follow? setting schedule = some next) :
    Reachable setting next := by
  obtain ⟨seen, hrun⟩ := follow?_run hfollow
  exact hrun.reachable hreach

theorem World.follow?_append (world : World) (first second : List (ThreadId × Option Request)) :
    world.follow? setting (first ++ second) =
      (world.follow? setting first).bind fun middle => middle.follow? setting second := by
  induction first generalizing world with
  | nil => rfl
  | cons head first ih =>
      simp only [List.cons_append, follow?, Option.bind_assoc]
      exact congrArg _ (funext fun next => ih next)

/-- The world that a schedule leads to from the beginning, as far as it can be followed at all. -/
def World.after (setting : Inference.Setting) (schedule : List (ThreadId × Option Request)) :
    World :=
  (World.initial.follow? setting schedule).getD .initial

theorem World.after_reachable (schedule : List (ThreadId × Option Request)) :
    Reachable setting (World.after setting schedule) := by
  unfold World.after
  cases hfollow : World.initial.follow? setting schedule with
  | none => exact .initial
  | some world => exact follow?_reachable .initial hfollow

theorem World.follow?_after (first second : List (ThreadId × Option Request))
    (hfollow : (World.initial.follow? setting (first ++ second)).isSome) :
    (World.after setting first).follow? setting second =
      some (World.after setting (first ++ second)) := by
  unfold World.after
  rw [follow?_append] at hfollow ⊢
  cases hfirst : World.initial.follow? setting first with
  | none => simp [hfirst] at hfollow
  | some middle =>
      simp only [hfirst, Option.bind_some, Option.getD_some] at hfollow ⊢
      obtain ⟨next, hnext⟩ := Option.isSome_iff_exists.mp hfollow
      simp [hnext]

theorem World.after_step (schedule : List (ThreadId × Option Request)) (me : ThreadId)
    (request : Option Request)
    (hfollow : (World.initial.follow? setting (schedule ++ [(me, request)])).isSome) :
    ∃ events, Step setting (World.after setting schedule) me events
      (World.after setting (schedule ++ [(me, request)])) := by
  have hnext := follow?_after schedule [(me, request)] hfollow
  simp only [follow?, Option.bind_eq_some_iff] at hnext
  obtain ⟨next, hmove, hlast⟩ := hnext
  exact Option.some.inj hlast ▸ move?_step hmove

theorem Step.idle_of_ne {world next : World} {me other : ThreadId} {events : List Event}
    (hstep : Step setting world me events next) (hne : other ≠ me)
    (hidle : world.threads other = .idle) : next.threads other = .idle := by
  cases hstep with
  | «begin» request rest => simpa [World.setThread, hne] using hidle
  | advance busy moves =>
      rw [World.afterTurn_threads]
      simp only [hne, if_false, hidle]
      split <;> rfl
  | wake waits => simpa [World.setThread, hne] using hidle
  | panic fails => simpa [World.setThread, hne] using hidle

/-- A thread that is not in a schedule stays at rest. -/
theorem World.follow?_idle {world next : World} {schedule : List (ThreadId × Option Request)}
    {thread : ThreadId} (hfollow : world.follow? setting schedule = some next)
    (habsent : ∀ move ∈ schedule, thread ≠ move.1) (hidle : world.threads thread = .idle) :
    next.threads thread = .idle := by
  induction schedule generalizing world with
  | nil => exact Option.some.inj hfollow ▸ hidle
  | cons head schedule ih =>
      simp only [follow?, Option.bind_eq_some_iff] at hfollow
      obtain ⟨middle, hmove, hrest⟩ := hfollow
      obtain ⟨events, hstep⟩ := move?_step hmove
      exact ih hrest (fun move hmem => habsent move (List.mem_cons_of_mem _ hmem))
        (hstep.idle_of_ne (habsent head List.mem_cons_self) hidle)

theorem World.after_idle {schedule : List (ThreadId × Option Request)} {thread : ThreadId}
    (habsent : ∀ move ∈ schedule, thread ≠ move.1) :
    (World.after setting schedule).threads thread = .idle := by
  unfold World.after
  cases hfollow : World.initial.follow? setting schedule with
  | none => rfl
  | some world => exact follow?_idle hfollow habsent rfl

/-! ## What a thread is about to do -/

deriving instance DecidableEq for Claimed

/-- The name whose slots a thread is about to discard. -/
def Thread.discards? : Thread → Option String
  | .active (.discarding name) _ => some name
  | _ => none

/-- The compilation whose outcome a thread is about to store. -/
def Thread.settles? : Thread → Option Claimed
  | .active (.settling claimed _) _ => some claimed
  | _ => none

theorem Thread.discards?_eq_some {thread : Thread} {name : String} :
    thread.discards? = some name ↔ ∃ callers, thread = .active (.discarding name) callers := by
  unfold discards?
  split <;> simp_all

theorem Thread.settles?_eq_some {thread : Thread} {claimed : Claimed} :
    thread.settles? = some claimed ↔
      ∃ entry callers, thread = .active (.settling claimed entry) callers := by
  unfold settles?
  split <;> simp_all

/-- The key that a thread sleeps on. -/
def Thread.sleepsOn? : Thread → Option Key
  | .active (.asleep key) _ => some key
  | _ => none

theorem Thread.sleepsOn?_eq_some {thread : Thread} {key : Key} :
    thread.sleepsOn? = some key ↔ ∃ callers, thread = .active (.asleep key) callers := by
  unfold sleepsOn?
  split <;> simp_all

/-- The outcome that a slot keeps. -/
def Slot.outcome? : Slot → Option Entry
  | .done entry => some entry
  | .inFlight _ => none

theorem Slot.outcome?_eq_some {slot : Slot} {entry : Entry} :
    slot.outcome? = some entry ↔ slot = .done entry := by
  cases slot <;> simp [outcome?]

/-! ## A function to try schedules with -/

/-- A function before it is redefined. -/
def staleSource : FunctionDef := { name := "f", args := [], body := [.pass {}] }

/-- A function that was redefined. -/
def freshSource : FunctionDef := { name := "f", args := [], body := [.ret {} none] }

/-- The key of the function. -/
def redefinedKey : Key := ⟨"f", []⟩

end KernelFront.Cache
