import KernelFront.Proofs.Dialogue

/-! # How passes can end

A pass ends with a value or refuses the function. `Meets` says what all values and final states
satisfy and which refusals are allowed, whatever the answers of the surroundings. A composed pass is
judged by its parts, so a walk over a tree needs one case for each form.
-/

namespace KernelFront.Pass

variable {α β σ : Type}

/-- Some answers bring the pass to this refusal. -/
def Refuses (pass : Pass α) (error : TypeError) : Prop := pass.run.Yields (.error error)

@[simp] theorem not_refuses_pure {value : α} {error : TypeError} :
    ¬ Refuses (pure value : Pass α) error := by
  simp [Refuses, pure, ExceptT.pure, ExceptT.run, ExceptT.mk]

@[simp] theorem refuses_throw {error refusal : TypeError} :
    Refuses (throw error : Pass α) refusal ↔ refusal = error := by
  simp [Refuses, throw, throwThe, MonadExceptOf.throw, pure, ExceptT.run, ExceptT.mk]

@[simp] theorem refuses_ofExcept {outcome : Except TypeError α} {error : TypeError} :
    Refuses (ofExcept outcome) error ↔ outcome = .error error := by
  simp [Refuses, ofExcept, ExceptT.run, ExceptT.mk, eq_comm]

@[simp] theorem not_refuses_report {level : Level} {text : String} {error : TypeError} :
    ¬ Refuses (report level text) error := by
  simp [Refuses, report, ExceptT.run, ExceptT.mk]

@[simp] theorem not_refuses_ask {callee : String} {args : List Ty} {error : TypeError} :
    ¬ Refuses (ask callee args) error := by
  simp [Refuses, ask, ExceptT.run, ExceptT.mk]

@[simp] theorem refuses_bind {pass : Pass α} {f : α → Pass β} {error : TypeError} :
    Refuses (pass >>= f) error ↔
      Refuses pass error ∨ ∃ value, Succeeds pass value ∧ Refuses (f value) error := by
  unfold Refuses Succeeds
  change (pass.run.bind _).Yields _ ↔ _
  rw [Dialogue.yields_bind]
  constructor
  · rintro ⟨refusal | value, hvalue, herror⟩
    · have hsame : error = refusal := by simpa [ExceptT.bindCont, pure] using herror
      exact .inl (hsame ▸ hvalue)
    · exact .inr ⟨value, hvalue, herror⟩
  · rintro (hrefuses | ⟨value, hvalue, herror⟩)
    · exact ⟨.error error, hrefuses, by simp [ExceptT.bindCont, pure]⟩
    · exact ⟨.ok value, hvalue, herror⟩

/-- What a fixed rule of answers is refused, some answers are refused. -/
theorem exists_refuses {pass : Pass α} {reason : TypeError → Prop} [DecidablePred reason]
    (resolve : String → List Ty → Resolution)
    (hanswer : (match (pass.run.answer resolve).2 with
      | .ok _ => false
      | .error error => decide (reason error)) = true) :
    ∃ error, Refuses pass error ∧ reason error := by
  have hyields := Dialogue.yields_answer resolve pass.run
  cases houtcome : (pass.run.answer resolve).2 with
  | ok value =>
      rw [houtcome] at hanswer
      cases hanswer
  | error error =>
      rw [houtcome] at hanswer hyields
      exact ⟨error, hyields, of_decide_eq_true hanswer⟩

/-- Whatever the answers are: the values and final states of the pass are good, and its refusals
are allowed. -/
structure Meets (allowed : TypeError → Prop) (pass : StateT σ Pass α) (before : σ)
    (good : α → σ → Prop) : Prop where
  reaches : ∀ {value after}, Reaches pass before value after → good value after
  refuses : ∀ {error}, Refuses (pass.run before) error → allowed error

variable {allowed : TypeError → Prop} {before : σ} {good : α → σ → Prop}

theorem meets_pure {value : α} (hgood : good value before) :
    Meets allowed (pure value) before good := by
  refine ⟨fun hreach => ?_, fun hrefuses => absurd hrefuses not_refuses_pure⟩
  obtain ⟨rfl, rfl⟩ := reaches_pure.mp hreach
  exact hgood

theorem meets_throw {error : TypeError} (hallowed : allowed error) :
    Meets allowed (throw error) before good := by
  refine ⟨fun hreach => absurd hreach not_reaches_throw, fun hrefuses => ?_⟩
  exact refuses_throw.mp hrefuses ▸ hallowed

theorem meets_get {good : σ → σ → Prop} (hgood : good before before) :
    Meets allowed get before good := by
  refine ⟨fun hreach => ?_, fun hrefuses => absurd hrefuses not_refuses_pure⟩
  obtain ⟨rfl, rfl⟩ := reaches_get.mp hreach
  exact hgood

theorem meets_set {good : PUnit → σ → Prop} {next : σ} (hgood : good ⟨⟩ next) :
    Meets allowed (set next) before good := by
  refine ⟨fun hreach => ?_, fun hrefuses => absurd hrefuses not_refuses_pure⟩
  obtain rfl := reaches_set.mp hreach
  exact hgood

theorem meets_modify {good : PUnit → σ → Prop} {f : σ → σ} (hgood : good ⟨⟩ (f before)) :
    Meets allowed (modify f) before good := by
  refine ⟨fun hreach => ?_, fun hrefuses => absurd hrefuses not_refuses_pure⟩
  obtain rfl := reaches_modify.mp hreach
  exact hgood

theorem meets_lift {pass : Pass α}
    (hgood : ∀ value, Succeeds pass value → good value before)
    (hallowed : ∀ error, Refuses pass error → allowed error) :
    Meets allowed (StateT.lift pass) before good := by
  refine ⟨fun hreach => ?_, fun hrefuses => ?_⟩
  · obtain ⟨hvalue, rfl⟩ := reaches_lift.mp hreach
    exact hgood _ hvalue
  · have hlift : (StateT.lift pass).run before = pass >>= fun value => pure (value, before) := rfl
    rw [hlift, refuses_bind] at hrefuses
    obtain hrefuses | ⟨_, _, hnever⟩ := hrefuses
    · exact hallowed _ hrefuses
    · exact absurd hnever not_refuses_pure

/-- A composed pass is judged by its parts. -/
theorem meets_bind {pass : StateT σ Pass α} {f : α → StateT σ Pass β} {middle : α → σ → Prop}
    {good : β → σ → Prop} (hpass : Meets allowed pass before middle)
    (hrest : ∀ value after, middle value after → Meets allowed (f value) after good) :
    Meets allowed (pass >>= f) before good := by
  refine ⟨fun hreach => ?_, fun hrefuses => ?_⟩
  · obtain ⟨value, after, hfirst, hsecond⟩ := reaches_bind.mp hreach
    exact (hrest value after (hpass.reaches hfirst)).reaches hsecond
  · rw [StateT.run_bind, refuses_bind] at hrefuses
    obtain hrefuses | ⟨⟨value, after⟩, hvalue, hrefuses⟩ := hrefuses
    · exact hpass.refuses hrefuses
    · exact (hrest value after (hpass.reaches hvalue)).refuses hrefuses

theorem Meets.mono {pass : StateT σ Pass α} {other : α → σ → Prop}
    (hmeets : Meets allowed pass before good)
    (hgood : ∀ value after, Reaches pass before value after → good value after →
      other value after) : Meets allowed pass before other :=
  ⟨fun hreach => hgood _ _ hreach (hmeets.reaches hreach), hmeets.refuses⟩

end KernelFront.Pass
