import KernelFront.Proofs.Dialogue
import KernelFront.Proofs.Questions

/-! # Answers of one kind

What a dialogue yields if only some answers are given. `YieldsWith` refines `Yields` by what the
answers are allowed to be: with all answers allowed the two agree, and a dialogue that keeps to a
contract yields only good values while the answers keep to it.
-/

namespace KernelFront

namespace Dialogue

variable {α β : Type} {allowed : Resolution → Prop}

/-- Some allowed answers bring the dialogue to an end with this value. -/
inductive YieldsWith (allowed : Resolution → Prop) : Dialogue α → α → Prop where
  | done (value : α) : YieldsWith allowed (.done value) value
  | report {message : Message} {next : Dialogue α} {value : α}
      (rest : YieldsWith allowed next value) : YieldsWith allowed (.report message next) value
  | ask {callee : String} {args : List Ty} {next : Resolution → Dialogue α} {value : α}
      {answer : Resolution} (hanswer : allowed answer)
      (rest : YieldsWith allowed (next answer) value) :
      YieldsWith allowed (.ask callee args next) value

theorem YieldsWith.yields {d : Dialogue α} {value : α} (hyields : d.YieldsWith allowed value) :
    d.Yields value := by
  induction hyields with
  | done value => exact .done value
  | report _ ih => exact .report ih
  | ask _ _ ih => exact .ask _ ih

theorem Yields.yieldsWith {d : Dialogue α} {value : α} (hall : ∀ answer, allowed answer)
    (hyields : d.Yields value) : d.YieldsWith allowed value := by
  induction hyields with
  | done value => exact .done value
  | report _ ih => exact .report ih
  | ask answer _ ih => exact .ask (hall answer) ih

theorem YieldsWith.mono {other : Resolution → Prop} {d : Dialogue α} {value : α}
    (hyields : d.YieldsWith allowed value) (hother : ∀ answer, allowed answer → other answer) :
    d.YieldsWith other value := by
  induction hyields with
  | done value => exact .done value
  | report _ ih => exact .report ih
  | ask hanswer _ ih => exact .ask (hother _ hanswer) ih

/-- A fixed rule of allowed answers gives some. -/
theorem yieldsWith_answer {resolve : String → List Ty → Resolution}
    (hallowed : ∀ callee args, allowed (resolve callee args)) (d : Dialogue α) :
    d.YieldsWith allowed (d.answer resolve).2 := by
  induction d with
  | done value => exact .done value
  | report message next ih => exact .report ih
  | ask callee args next ih => exact .ask (hallowed callee args) (ih _)

/-- A composed dialogue ends by way of an end of its first part. -/
theorem exists_of_yieldsWith_bind {d : Dialogue α} {f : α → Dialogue β} {result : β}
    (hyields : (d.bind f).YieldsWith allowed result) :
    ∃ value, d.YieldsWith allowed value ∧ (f value).YieldsWith allowed result := by
  induction d with
  | done value => exact ⟨value, .done value, hyields⟩
  | report message next ih =>
      cases hyields with
      | report rest =>
          obtain ⟨value, hvalue, hresult⟩ := ih rest
          exact ⟨value, .report hvalue, hresult⟩
  | ask callee args next ih =>
      cases hyields with
      | ask hanswer rest =>
          obtain ⟨value, hvalue, hresult⟩ := ih _ rest
          exact ⟨value, .ask hanswer hvalue, hresult⟩

/-- While the answers keep to the contract, a dialogue that does so too yields a good value. -/
theorem Obeys.good {contract : Contract} {good : α → Prop} {d : Dialogue α} {value : α}
    (hobeys : d.Obeys contract good) (hyields : d.YieldsWith contract.answer value) :
    good value := by
  induction hyields with
  | done => exact hobeys
  | report _ ih => exact ih hobeys
  | ask hanswer _ ih => exact ih (hobeys.2 _ hanswer)

end Dialogue

namespace Pass

variable {α β : Type} {allowed : Resolution → Prop}

/-- Some allowed answers bring the pass to an end without a refusal. -/
def SucceedsWith (allowed : Resolution → Prop) (pass : Pass α) (value : α) : Prop :=
  pass.run.YieldsWith allowed (.ok value)

theorem SucceedsWith.succeeds {pass : Pass α} {value : α}
    (hsucceeds : SucceedsWith allowed pass value) : Succeeds pass value :=
  Dialogue.YieldsWith.yields hsucceeds

theorem Succeeds.succeedsWith {pass : Pass α} {value : α} (hall : ∀ answer, allowed answer)
    (hsucceeds : Succeeds pass value) : SucceedsWith allowed pass value :=
  Dialogue.Yields.yieldsWith hall hsucceeds

theorem SucceedsWith.mono {other : Resolution → Prop} {pass : Pass α} {value : α}
    (hsucceeds : SucceedsWith allowed pass value)
    (hother : ∀ answer, allowed answer → other answer) : SucceedsWith other pass value :=
  Dialogue.YieldsWith.mono hsucceeds hother

theorem exists_of_succeedsWith_bind {pass : Pass α} {f : α → Pass β} {result : β}
    (hsucceeds : SucceedsWith allowed (pass >>= f) result) :
    ∃ value, SucceedsWith allowed pass value ∧ SucceedsWith allowed (f value) result := by
  change (pass.run.bind _).YieldsWith _ _ at hsucceeds
  obtain ⟨outcome, houtcome, hrest⟩ := Dialogue.exists_of_yieldsWith_bind hsucceeds
  cases outcome with
  | error e => cases hrest
  | ok value => exact ⟨value, houtcome, hrest⟩

/-- What a fixed rule of allowed answers leads to, some allowed answers lead to. -/
theorem exists_succeedsWith {pass : Pass α} {test : α → Bool}
    (resolve : String → List Ty → Resolution)
    (hallowed : ∀ callee args, allowed (resolve callee args))
    (hanswer : (pass.run.answer resolve).2.toOption.any test) :
    ∃ value, SucceedsWith allowed pass value ∧ test value = true := by
  obtain ⟨value, hvalue, htest⟩ := exists_ok_of_any hanswer
  have hyields := Dialogue.yieldsWith_answer hallowed pass.run
  rw [hvalue] at hyields
  exact ⟨value, hyields, htest⟩

theorem Obeys.good {contract : Contract} {good : α → Prop} {pass : Pass α} {value : α}
    (hobeys : Obeys contract good pass) (hsucceeds : SucceedsWith contract.answer pass value) :
    good value :=
  Dialogue.Obeys.good hobeys hsucceeds value rfl

/-- What holds of every value that some answers lead to holds of every good value. -/
theorem obeys_and {contract : Contract} {pass : Pass α} {good other : α → Prop}
    (hpass : Obeys contract good pass) (hother : ∀ value, Succeeds pass value → other value) :
    Obeys contract (fun value => good value ∧ other value) pass := by
  unfold Obeys Succeeds at *
  generalize pass.run = dialogue at *
  induction dialogue with
  | done outcome =>
      rintro value rfl
      exact ⟨hpass value rfl, hother value (.done _)⟩
  | report message next ih => exact ih hpass fun value hvalue => hother value (.report hvalue)
  | ask callee args next ih =>
      exact ⟨hpass.1, fun answer hanswer => ih answer (hpass.2 answer hanswer) fun value hvalue =>
        hother value (.ask answer hvalue)⟩

theorem keeps_and {σ : Type} {contract : Contract} {invariant : σ → Prop}
    {pass : StateT σ Pass α} {good other : α → Prop}
    (hpass : Keeps contract invariant good pass)
    (hother : ∀ before value after, Reaches pass before value after → other value) :
    Keeps contract invariant (fun value => good value ∧ other value) pass := by
  intro before hbefore
  refine obeys_mono ?_ (obeys_and (hpass before hbefore) fun result hresult =>
    hother before result.1 result.2 hresult)
  rintro _ ⟨⟨hafter, hgood⟩, hother⟩
  exact ⟨hafter, hgood, hother⟩

end Pass

end KernelFront
