import KernelFront.Proofs.Answers
import KernelFront.Proofs.Guarded

/-! # Computations without faults

A guarded pass is faultless if it does what the pass that it guards does: it reports the same
messages, asks the same questions, and is refused for the same reasons or comes to the same values,
so that no fault ever stops it. Answers of one kind only are considered, and the values have to be
good. What follows a step of a faultless pass need be faultless for good values only.
-/

namespace KernelFront

namespace Dialogue

variable {α β γ δ : Type} {allowed : Resolution → Prop} {ends : α → β → Prop}

/-- Two dialogues report the same messages and ask the same questions, and their values are related
at the end while the answers are allowed. -/
inductive Parallels (allowed : Resolution → Prop) (ends : α → β → Prop) :
    Dialogue α → Dialogue β → Prop where
  | done {first : α} {second : β} (hends : ends first second) :
      Parallels allowed ends (.done first) (.done second)
  | report {message : Message} {first : Dialogue α} {second : Dialogue β}
      (rest : Parallels allowed ends first second) :
      Parallels allowed ends (.report message first) (.report message second)
  | ask {callee : String} {args : List Ty} {first : Resolution → Dialogue α}
      {second : Resolution → Dialogue β}
      (rest : ∀ answer, allowed answer → Parallels allowed ends (first answer) (second answer)) :
      Parallels allowed ends (.ask callee args first) (.ask callee args second)

theorem parallels_bind {first : Dialogue α} {second : Dialogue β} {f : α → Dialogue γ}
    {g : β → Dialogue δ} {last : γ → δ → Prop} (hfirst : Parallels allowed ends first second)
    (hrest : ∀ a b, ends a b → Parallels allowed last (f a) (g b)) :
    Parallels allowed last (first.bind f) (second.bind g) := by
  induction hfirst with
  | done hends => exact hrest _ _ hends
  | report _ ih => exact .report ih
  | ask _ ih => exact .ask ih

/-- A dialogue parallels itself, and while the answers keep to a contract that it keeps to, its
value is good. -/
theorem Obeys.parallels {contract : Contract} {good : α → Prop} {d : Dialogue α}
    (hobeys : d.Obeys contract good) :
    Parallels contract.answer (fun first second => first = second ∧ good first) d d := by
  induction d with
  | done value => exact .done ⟨rfl, hobeys⟩
  | report message next ih => exact .report (ih hobeys)
  | ask callee args next ih => exact .ask fun answer hanswer => ih answer (hobeys.2 answer hanswer)

/-- What the second dialogue yields is related to something that the first yields. -/
theorem Parallels.exists_of_yieldsWith {first : Dialogue α} {second : Dialogue β} {value : β}
    (hparallels : Parallels allowed ends first second) (hyields : second.YieldsWith allowed value) :
    ∃ other, first.YieldsWith allowed other ∧ ends other value := by
  induction hparallels with
  | done hends =>
      cases hyields
      exact ⟨_, .done _, hends⟩
  | report _ ih =>
      cases hyields with
      | report rest =>
          obtain ⟨other, hother, hends⟩ := ih rest
          exact ⟨other, .report hother, hends⟩
  | ask _ ih =>
      cases hyields with
      | ask hanswer rest =>
          obtain ⟨other, hother, hends⟩ := ih _ hanswer rest
          exact ⟨other, .ask hanswer hother, hends⟩

end Dialogue

namespace Guarded

variable {α β σ : Type}

/-- No fault stopped the computation: both outcomes are one refusal or one good value. -/
inductive Spared (good : α → Prop) : Except TypeError (Except Fault α) → Except TypeError α → Prop
    where
  | refused (error : TypeError) : Spared good (.error error) (.error error)
  | done {value : α} (hgood : good value) : Spared good (.ok (.ok value)) (.ok value)

/-- While the answers are allowed, a guarded pass does what the pass that it guards does: no fault
stops it. The values of both are good. -/
def Faultless (allowed : Resolution → Prop) (good : α → Prop) (guarded : Guarded Pass α)
    (pass : Pass α) : Prop :=
  guarded.run.run.Parallels allowed (Spared good) pass.run

variable {allowed : Resolution → Prop} {good : α → Prop} {last : β → Prop}
  {guarded : Guarded Pass α} {pass : Pass α}

theorem faultless_pure {value : α} (hgood : good value) :
    Faultless allowed good (pure value) (pure value) :=
  .done (.done hgood)

theorem faultless_bind {f : α → Guarded Pass β} {g : α → Pass β}
    (hfirst : Faultless allowed good guarded pass)
    (hrest : ∀ value, good value → Faultless allowed last (f value) (g value)) :
    Faultless allowed last (guarded >>= f) (pass >>= g) := by
  refine Dialogue.parallels_bind hfirst ?_
  rintro _ _ (error | hgood)
  · exact .done (.refused error)
  · exact hrest _ hgood

theorem faultless_lift {contract : Contract} (hobeys : Pass.Obeys contract good pass) :
    Faultless contract.answer good (ExceptT.lift pass) pass := by
  have hsame : pass.run = pass.run.bind .done := (Dialogue.bind_done _).symm
  unfold Faultless
  rw [hsame]
  refine Dialogue.parallels_bind hobeys.parallels ?_
  rintro (error | value) _ ⟨rfl, hgood⟩
  · exact .done (.refused error)
  · exact .done (.done (hgood value rfl))

theorem faultless_report {level : Level} {text : String} :
    Faultless allowed (fun _ => True) (ExceptT.lift (Pass.report level text))
      (Pass.report level text) :=
  .report (.done (.done trivial))

theorem faultless_mono {weaker : α → Prop} (hweaker : ∀ value, good value → weaker value)
    (hfaultless : Faultless allowed good guarded pass) :
    Faultless allowed weaker guarded pass := by
  have hpass : Faultless allowed weaker (guarded >>= pure) (pass >>= pure) :=
    faultless_bind hfaultless fun value hgood => faultless_pure (hweaker value hgood)
  rwa [bind_pure, bind_pure] at hpass

/-- What the pass comes to is good, and the guarded pass comes to it too. -/
theorem Faultless.of_succeedsWith {value : α} (hfaultless : Faultless allowed good guarded pass)
    (hsucceeds : Pass.SucceedsWith allowed pass value) :
    good value ∧ Pass.SucceedsWith allowed guarded.run (.ok value) := by
  obtain ⟨_, hother, hspared⟩ := Dialogue.Parallels.exists_of_yieldsWith hfaultless hsucceeds
  cases hspared with
  | done hgood => exact ⟨hgood, hother⟩

/-! ## Steps that have a result -/

section Steps

variable {m : Type → Type} [Monad m]

theorem difference_of_le {minuend subtrahend : Nat} (hle : subtrahend ≤ minuend) :
    (difference minuend subtrahend : Guarded m Nat) = pure (minuend - subtrahend) :=
  if_pos hle

@[simp] theorem element_cons_zero (x : α) (xs : List α) :
    (element (x :: xs) 0 : Guarded m α) = pure x := rfl

@[simp] theorem remove_cons_zero [LawfulMonad m] (x : α) (xs : List α) :
    (remove (x :: xs) 0 : Guarded m (α × List α)) = pure (x, xs) := by
  simp [remove]

theorem lookUp_of_lt {table : SymbolTable} {ids : List SymbolId}
    (hids : ∀ id ∈ ids, id.index < table.size) : (lookUp table ids : Guarded m Unit) = pure () := by
  have hnone : (ids.find? fun id => table.size ≤ id.index) = none := by
    rw [List.find?_eq_none]
    exact fun id hid => by simpa using hids id hid
  simp only [lookUp, hnone]

theorem watch_of_lt [LawfulMonad m] {table : SymbolTable} {parts : List Expr}
    (hparts : ∀ id ∈ Expr.symbolsAll parts, id.index < table.size) (step : m α) :
    watch table parts step = ExceptT.lift step := by
  simp only [watch, lookUp_of_lt hparts, pure_bind]

end Steps

/-! ## Guarded passes that keep a state -/

section State

variable {m : Type → Type} [Monad m] [LawfulMonad m]

@[simp] theorem runState_pure (value : α) (state : σ) :
    runState (pure value : Guarded (StateT σ m) α) state = pure (value, state) := by
  simp [runState, Except.map]
  rfl

@[simp] theorem runState_lift (step : StateT σ m α) (state : σ) :
    runState (ExceptT.lift step) state = ExceptT.lift (step.run state) := by
  simp [runState, Except.map]
  rfl

@[simp] theorem runState_get (state : σ) :
    runState (get : Guarded (StateT σ m) σ) state = pure (state, state) := by
  refine (runState_lift get state).trans ?_
  rw [StateT.run_get]
  exact map_pure _ _

@[simp] theorem runState_bind (first : Guarded (StateT σ m) α) (f : α → Guarded (StateT σ m) β)
    (state : σ) :
    runState (first >>= f) state =
      runState first state >>= fun (value, state) => runState (f value) state := by
  refine ExceptT.ext ?_
  simp only [runState, ExceptT.run_bind, ExceptT.run_mk, StateT.run_bind, bind_assoc, pure_bind]
  refine bind_congr fun (outcome, state) => ?_
  cases outcome with
  | error fault => simp [Except.map]
  | ok value => simp [Except.map]

end State

end Guarded

end KernelFront
