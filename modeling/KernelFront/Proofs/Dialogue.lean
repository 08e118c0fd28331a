import KernelFront.Dialogue

/-! # What a dialogue can come to

A dialogue ends in different ways for different answers to its questions. `Leads` says that some
answers bring it to a later point, `Yields` that some answers bring it to its end. The answers are
free at every question: a resolver may keep a state, or answer the same question twice differently.
-/

namespace KernelFront

namespace Dialogue

variable {α β : Type}

/-- Some answers bring the first dialogue to the point where the second is left to do. -/
inductive Leads (start : Dialogue α) : Dialogue α → Prop where
  | refl : Leads start start
  | report {message : Message} {next : Dialogue α} (before : Leads start (.report message next)) :
      Leads start next
  | ask {callee : String} {args : List Ty} {next : Resolution → Dialogue α} (answer : Resolution)
      (before : Leads start (.ask callee args next)) : Leads start (next answer)

/-- Some answers bring the dialogue to an end with this value. -/
inductive Yields : Dialogue α → α → Prop where
  | done (value : α) : Yields (.done value) value
  | report {message : Message} {next : Dialogue α} {value : α} (rest : Yields next value) :
      Yields (.report message next) value
  | ask {callee : String} {args : List Ty} {next : Resolution → Dialogue α} {value : α}
      (answer : Resolution) (rest : Yields (next answer) value) :
      Yields (.ask callee args next) value

/-- What a dialogue yields at a later point, it yields from the start. -/
theorem Leads.yields {start later : Dialogue α} {value : α} (hleads : start.Leads later)
    (hyields : later.Yields value) : start.Yields value := by
  induction hleads with
  | refl => exact hyields
  | report _ ih => exact ih (.report hyields)
  | ask answer _ ih => exact ih (.ask answer hyields)

@[simp] theorem yields_done {value result : α} :
    (Dialogue.done value).Yields result ↔ result = value := by
  constructor
  · rintro ⟨⟩
    rfl
  · rintro rfl
    exact .done _

@[simp] theorem yields_report {message : Message} {next : Dialogue α} {result : α} :
    (Dialogue.report message next).Yields result ↔ next.Yields result := by
  constructor
  · rintro ⟨⟩
    assumption
  · exact .report

@[simp] theorem yields_ask {callee : String} {args : List Ty} {next : Resolution → Dialogue α}
    {result : α} :
    (Dialogue.ask callee args next).Yields result ↔ ∃ answer, (next answer).Yields result := by
  constructor
  · rintro ⟨⟩
    exact ⟨_, ‹_›⟩
  · rintro ⟨answer, hrest⟩
    exact .ask answer hrest

/-- A composed dialogue ends by way of an end of its first part. -/
theorem yields_bind {d : Dialogue α} {f : α → Dialogue β} {result : β} :
    (d.bind f).Yields result ↔ ∃ value, d.Yields value ∧ (f value).Yields result := by
  induction d with
  | done value => simp [Dialogue.bind]
  | report message next ih => simp [Dialogue.bind, ih]
  | ask callee args next ih =>
      simp only [Dialogue.bind, yields_ask, ih]
      constructor
      · rintro ⟨answer, value, hvalue, hresult⟩
        exact ⟨value, ⟨answer, hvalue⟩, hresult⟩
      · rintro ⟨value, ⟨answer, hvalue⟩, hresult⟩
        exact ⟨answer, value, hvalue, hresult⟩

/-- A fixed rule gives some answers. -/
theorem yields_answer (resolve : String → List Ty → Resolution) (d : Dialogue α) :
    d.Yields (d.answer resolve).2 := by
  induction d with
  | done value => exact .done value
  | report message next ih => exact .report ih
  | ask callee args next ih => exact .ask _ (ih _)

end Dialogue

namespace Pass

variable {α β : Type}

/-- Some answers bring the pass to an end without a refusal. -/
def Succeeds (pass : Pass α) (value : α) : Prop := pass.run.Yields (.ok value)

@[simp] theorem succeeds_pure {value result : α} :
    Succeeds (pure value : Pass α) result ↔ result = value := by
  simp [Succeeds, pure, ExceptT.pure, ExceptT.run, ExceptT.mk]

@[simp] theorem not_succeeds_throw {error : TypeError} {result : α} :
    ¬ Succeeds (throw error : Pass α) result := by
  simp [Succeeds, throw, throwThe, MonadExceptOf.throw, pure, ExceptT.run, ExceptT.mk]

@[simp] theorem succeeds_ofExcept {outcome : Except TypeError α} {result : α} :
    Succeeds (ofExcept outcome) result ↔ outcome = .ok result := by
  simp [Succeeds, ofExcept, ExceptT.run, ExceptT.mk, eq_comm]

@[simp] theorem succeeds_report {level : Level} {text : String} {result : Unit} :
    Succeeds (report level text) result := by
  simp [Succeeds, report, ExceptT.run, ExceptT.mk]

@[simp] theorem succeeds_bind {pass : Pass α} {f : α → Pass β} {result : β} :
    Succeeds (pass >>= f) result ↔ ∃ value, Succeeds pass value ∧ Succeeds (f value) result := by
  unfold Succeeds
  change (pass.run.bind _).Yields _ ↔ _
  rw [Dialogue.yields_bind]
  constructor
  · rintro ⟨_ | value, hvalue, hresult⟩
    · simp [ExceptT.bindCont, pure] at hresult
    · exact ⟨value, hvalue, hresult⟩
  · rintro ⟨value, hvalue, hresult⟩
    exact ⟨.ok value, hvalue, hresult⟩

/-- An outcome that passes a test is no refusal. -/
theorem exists_ok_of_any {outcome : Except TypeError α} {test : α → Bool}
    (hany : outcome.toOption.any test) : ∃ value, outcome = .ok value ∧ test value = true := by
  cases outcome with
  | error e => cases hany
  | ok value => exact ⟨value, rfl, hany⟩

/-- What a fixed rule of answers leads to, some answers lead to. -/
theorem exists_succeeds {pass : Pass α} {test : α → Bool}
    (resolve : String → List Ty → Resolution)
    (hanswer : (pass.run.answer resolve).2.toOption.any test) :
    ∃ value, Succeeds pass value ∧ test value = true := by
  obtain ⟨value, hvalue, htest⟩ := exists_ok_of_any hanswer
  have hyields := Dialogue.yields_answer resolve pass.run
  rw [hvalue] at hyields
  exact ⟨value, hyields, htest⟩

variable {σ : Type}

/-- Some answers bring a pass that keeps a state from one state to an end in another. -/
def Reaches (pass : StateT σ Pass α) (before : σ) (value : α) (after : σ) : Prop :=
  Succeeds (pass.run before) (value, after)

@[simp] theorem reaches_pure {value result : α} {before after : σ} :
    Reaches (pure value) before result after ↔ result = value ∧ after = before := by
  simp [Reaches]

@[simp] theorem not_reaches_throw {error : TypeError} {before after : σ} {result : α} :
    ¬ Reaches (throw error) before result after := by
  have hthrow : (throw error : StateT σ Pass α).run before = throw error := rfl
  simp [Reaches, hthrow]

@[simp] theorem reaches_get {before result after : σ} :
    Reaches get before result after ↔ result = before ∧ after = before := by
  simp [Reaches]

@[simp] theorem reaches_set {next before after : σ} {result : PUnit} :
    Reaches (set next) before result after ↔ after = next := by
  simp [Reaches]

@[simp] theorem reaches_modify {f : σ → σ} {before after : σ} {result : PUnit} :
    Reaches (modify f) before result after ↔ after = f before := by
  simp [Reaches]

@[simp] theorem reaches_lift {pass : Pass α} {before after : σ} {result : α} :
    Reaches (StateT.lift pass) before result after ↔ Succeeds pass result ∧ after = before := by
  have hlift : (StateT.lift pass).run before = pass >>= fun value => pure (value, before) := rfl
  simp only [Reaches, hlift, succeeds_bind, succeeds_pure, Prod.mk.injEq]
  constructor
  · rintro ⟨_, hvalue, rfl, rfl⟩
    exact ⟨hvalue, rfl⟩
  · rintro ⟨hvalue, rfl⟩
    exact ⟨result, hvalue, rfl, rfl⟩

@[simp] theorem reaches_bind {pass : StateT σ Pass α} {f : α → StateT σ Pass β} {before after : σ}
    {result : β} :
    Reaches (pass >>= f) before result after ↔
      ∃ value middle, Reaches pass before value middle ∧ Reaches (f value) middle result after := by
  simp [Reaches]

end Pass

end KernelFront
