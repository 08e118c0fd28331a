import KernelFront.Dialogue

/-! # What a dialogue asks

A dialogue and its surroundings make a contract about its questions and the answers to them. While
the answers keep to the contract, `Obeys` says that the questions do so too and that the value at
the end is good. Every rule below is about a composed pass or about one of the operations that
passes are made of, so that a walk over a tree needs one case for each form.
-/

namespace KernelFront

/-- The questions that may be asked and the answers that may be given. -/
structure Contract where
  question : String → List Ty → Prop
  answer : Resolution → Prop

namespace Dialogue

variable {α β : Type} {contract : Contract}

/-- As long as the answers keep to the contract, so do the questions, and the value is good. -/
def Obeys (contract : Contract) (good : α → Prop) : Dialogue α → Prop
  | .done value => good value
  | .report _ next => next.Obeys contract good
  | .ask callee args next =>
      contract.question callee args ∧
        ∀ answer, contract.answer answer → (next answer).Obeys contract good

theorem obeys_bind {d : Dialogue α} {f : α → Dialogue β} {good : α → Prop} {last : β → Prop}
    (hfirst : d.Obeys contract good) (hrest : ∀ value, good value → (f value).Obeys contract last) :
    (d.bind f).Obeys contract last := by
  induction d with
  | done value => exact hrest value hfirst
  | report message next ih => exact ih hfirst
  | ask callee args next ih =>
      exact ⟨hfirst.1, fun answer hanswer => ih answer (hfirst.2 answer hanswer)⟩

end Dialogue

namespace Pass

variable {α β σ : Type} {contract : Contract}

/-- A pass keeps to the contract, and its value is good unless it refuses the function. -/
def Obeys (contract : Contract) (good : α → Prop) (pass : Pass α) : Prop :=
  pass.run.Obeys contract fun outcome => ∀ value, outcome = .ok value → good value

theorem obeys_ofExcept {outcome : Except TypeError α} {good : α → Prop}
    (hgood : ∀ value, outcome = .ok value → good value) :
    Obeys contract good (ofExcept outcome) :=
  hgood

theorem obeys_pure {value : α} {good : α → Prop} (hgood : good value) :
    Obeys contract good (pure value) := by
  rintro _ ⟨⟩
  exact hgood

theorem obeys_throw {error : TypeError} {good : α → Prop} : Obeys contract good (throw error) := by
  rintro _ ⟨⟩

theorem obeys_report {level : Level} {text : String} :
    Obeys contract (fun _ => True) (report level text) :=
  fun _ _ => trivial

theorem obeys_ask {callee : String} {args : List Ty} (hquestion : contract.question callee args) :
    Obeys contract contract.answer (ask callee args) := by
  refine ⟨hquestion, fun answer hanswer => ?_⟩
  rintro _ ⟨⟩
  exact hanswer

theorem obeys_bind {pass : Pass α} {f : α → Pass β} {good : α → Prop} {last : β → Prop}
    (hfirst : Obeys contract good pass)
    (hrest : ∀ value, good value → Obeys contract last (f value)) :
    Obeys contract last (pass >>= f) := by
  refine Dialogue.obeys_bind hfirst fun outcome houtcome => ?_
  cases outcome with
  | error => rintro _ ⟨⟩
  | ok value => exact hrest value (houtcome value rfl)

theorem obeys_mono {pass : Pass α} {good last : α → Prop}
    (hweaker : ∀ value, good value → last value) (hpass : Obeys contract good pass) :
    Obeys contract last pass := by
  have hsame : pass = pass >>= pure := (bind_pure pass).symm
  rw [hsame]
  exact obeys_bind hpass fun value hvalue => obeys_pure (hweaker value hvalue)

/-- A pass keeps to the contract and keeps an invariant of its state. -/
def Keeps (contract : Contract) (invariant : σ → Prop) (good : α → Prop)
    (pass : StateT σ Pass α) : Prop :=
  ∀ before, invariant before →
    Obeys contract (fun (value, after) => invariant after ∧ good value) (pass.run before)

variable {invariant : σ → Prop} {good : α → Prop} {last : β → Prop}

theorem keeps_pure {value : α} (hgood : good value) :
    Keeps contract invariant good (pure value) :=
  fun _ hbefore => obeys_pure ⟨hbefore, hgood⟩

theorem keeps_throw {error : TypeError} : Keeps contract invariant good (throw error) :=
  fun _ _ => obeys_throw

theorem keeps_get : Keeps contract invariant invariant get :=
  fun _ hbefore => obeys_pure ⟨hbefore, hbefore⟩

theorem keeps_modify {f : σ → σ} (hkeeps : ∀ before, invariant before → invariant (f before)) :
    Keeps contract invariant (fun _ => True) (modify f) :=
  fun before hbefore => obeys_pure ⟨hkeeps before hbefore, trivial⟩

theorem keeps_lift {pass : Pass α} (hpass : Obeys contract good pass) :
    Keeps contract invariant good (StateT.lift pass) :=
  fun _ hbefore => obeys_bind hpass fun _ hgood => obeys_pure ⟨hbefore, hgood⟩

theorem keeps_bind {pass : StateT σ Pass α} {f : α → StateT σ Pass β}
    (hfirst : Keeps contract invariant good pass)
    (hrest : ∀ value, good value → Keeps contract invariant last (f value)) :
    Keeps contract invariant last (pass >>= f) := by
  intro before hbefore
  rw [StateT.run_bind]
  exact obeys_bind (hfirst before hbefore) fun (value, middle) ⟨hmiddle, hvalue⟩ =>
    hrest value hvalue middle hmiddle

theorem keeps_mono {pass : StateT σ Pass α} {good last : α → Prop}
    (hweaker : ∀ value, good value → last value) (hpass : Keeps contract invariant good pass) :
    Keeps contract invariant last pass :=
  fun before hbefore =>
    obeys_mono (fun _ ⟨hafter, hvalue⟩ => ⟨hafter, hweaker _ hvalue⟩) (hpass before hbefore)

end Pass

end KernelFront
