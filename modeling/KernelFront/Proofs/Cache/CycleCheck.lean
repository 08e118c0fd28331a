import KernelFront.Proofs.Cache.Errors
import KernelFront.Proofs.InternalTexts

/-! # Which waits are refused

A thread that finds a key in flight follows the waits from the owner of the key and refuses to wait
if they lead to itself. The number of steps is bounded, but on a chain of waits every thread is
recorded as waiting and none occurs twice, so the bound cuts no chain short. A thread that owns no
key is never refused, and that includes every thread that begins a request.
-/

namespace KernelFront.Cache

variable {setting : Inference.Setting}

namespace Shared

/-- A claim is refused if and only if the owner of the key waits for the claiming thread. -/
theorem claim_eq_cycle_iff {shared : Shared} {me : ThreadId} {key : Key} :
    (shared.claim me key).1 = .cycle ↔
      ∃ owner, shared.owner? key = some owner ∧ shared.waitsOn owner me := by
  unfold claim owner?
  cases shared.slots.get? key with
  | none => simp
  | some slot =>
      cases slot with
      | done entry => simp
      | inFlight owner => by_cases hwaits : shared.waitsOn owner me <;> simp [hwaits]

end Shared

/-! ## Errors about a compilation inside itself -/

/-- What is said about a key that is asked for inside its own compilation. -/
def insideItself (name : String) : String :=
  "compiling `" ++ name ++ "` from inside its own compilation"

/-- The error does not say that a key was asked for inside its own compilation. -/
def Outward (error : TypeError) : Prop := ∀ name, error.cause ≠ .internal (insideItself name)

theorem head?_insideItself (name : String) : (insideItself name).toList.head? = some 'c' := by
  simp [insideItself]

theorem head?_ne_of_mem_internalTexts {text : String} (hmem : text ∈ internalTexts) :
    text.toList.head? ≠ some 'c' := by
  have hall : ∀ text ∈ internalTexts, text.toList.head? ≠ some 'c' := by decide
  exact hall text hmem

/-- No compilation is refused as if it were asked for inside itself. -/
theorem contains_outward : Contains setting Outward := by
  refine ⟨fun hrefuses name hcause => ?_, fun name other hcause => ?_⟩
  · have hmem := FunctionDef.listed_of_compile hrefuses _ hcause
    exact head?_ne_of_mem_internalTexts hmem (head?_insideItself name)
  · have htext := Cause.internal.inj hcause
    have hhead := head?_insideItself other
    rw [← htext] at hhead
    simp at hhead

/-! ## The theorem -/

/-- In every run the bounded check is exact. It finds that a thread waits for another one if and
only if a chain of waits leads from the first to the second, each from a thread to the owner of the
key it is recorded to wait for, and more steps would find nothing else; whoever is recorded as
waiting is about to look at that key again or asleep on it, and whoever sleeps is recorded. A claim
is refused if and only if the waits lead from the owner of the key to the claiming thread, and only
if that thread owns a key itself. A thread that begins a request owns none, and no request is ever
answered with the error that its key was asked for inside its own compilation. -/
theorem cycle_check_exact {world : World} {seen : List (ThreadId × Event)}
    (hrun : Run setting .initial seen world) :
    (∀ owner me, world.shared.waitsOn owner me ↔
      Relation.ReflTransGen world.shared.BlockedOn owner me) ∧
    (∀ owner me steps, world.shared.blockedWithin me steps owner →
      world.shared.waitsOn owner me) ∧
    (∀ thread key, world.shared.waiting.get? thread = some key →
      (world.threads thread).awaits? = some key) ∧
    (∀ thread key, (world.threads thread).Asleep key →
      world.shared.waiting.get? thread = some key) ∧
    (∀ me key, (world.shared.claim me key).1 = .cycle ↔
      ∃ owner, world.shared.owner? key = some owner ∧
        Relation.ReflTransGen world.shared.BlockedOn owner me) ∧
    (∀ me key, (world.shared.claim me key).1 = .cycle →
      ∃ owned, world.shared.owner? owned = some me) ∧
    (∀ me, world.threads me = .idle → ∀ key, world.shared.owner? key ≠ some me) ∧
    ∀ me name span, (me, Event.replied (.failed (.type
      ⟨.internal ("compiling `" ++ name ++ "` from inside its own compilation"), span⟩))) ∉
        seen := by
  have hreach : Reachable setting world := ⟨seen, hrun⟩
  have hattentive := hreach.attentive
  obtain ⟨rank, hranks⟩ := hattentive.ranks
  refine ⟨fun owner me => hranks.waitsOn_iff, ?_, fun thread key => hattentive.awaits,
    fun thread key => hattentive.recorded, ?_, ?_, ?_, ?_⟩
  · intro owner me steps hwithin
    exact hranks.waitsOn_iff.mpr (Shared.blockedWithin.reflTransGen hwithin)
  · intro me key
    simp only [Shared.claim_eq_cycle_iff, hranks.waitsOn_iff]
  · intro me key hcycle
    obtain ⟨owner, howner, hwaits⟩ := Shared.claim_eq_cycle_iff.mp hcycle
    exact Shared.waitsOn.exists_owned howner hwaits
  · intro me hidle
    exact hreach.not_owner (by rw [hidle]; rfl)
  · intro me name span hmem
    exact (contains_outward.run hrun).2 _ hmem _ rfl name rfl

/-- A function that calls another one. -/
def crossingSource (name callee : String) : FunctionDef where
  name := name
  args := []
  body := [.expr {} (.call {} (.name {} callee .load) [] [])]

/-- Two threads compile functions that call each other. The first one sleeps on the key of the
second one, which is about to look at the key of the first one. -/
def crossing : List (ThreadId × Option Request) :=
  [(0, some (.register (crossingSource "f" "g"))), (0, none),
    (0, some (.register (crossingSource "g" "f"))), (0, none), (0, some (.compile ⟨"f", []⟩))] ++
    moves 0 7 ++ [(1, some (.compile ⟨"g", []⟩))] ++ moves 1 7 ++ moves 0 1

/-- The second thread is refused, since the first one waits for it. -/
theorem cycle_check_exact_crossing :
    Run usualSetting .initial (World.initial.seen usualSetting crossing)
      (World.after usualSetting crossing) ∧
    ((World.after usualSetting crossing).threads 1).awaits? = some ⟨"f", []⟩ ∧
    (World.after usualSetting crossing).shared.owner? ⟨"f", []⟩ = some 0 ∧
    Relation.ReflTransGen (World.after usualSetting crossing).shared.BlockedOn 0 1 ∧
    ((World.after usualSetting crossing).shared.claim 1 ⟨"f", []⟩).1 = .cycle := by
  have hrun : Run usualSetting .initial (World.initial.seen usualSetting crossing)
      (World.after usualSetting crossing) :=
    World.follow?_seen (@World.follow?_after usualSetting [] crossing (by decide +kernel))
  obtain ⟨hexact, _, _, _, hrefused, _⟩ := cycle_check_exact hrun
  have howner : (World.after usualSetting crossing).shared.owner? ⟨"f", []⟩ = some 0 := by
    decide +kernel
  have hpath := (hexact 0 1).mp (by decide +kernel)
  exact ⟨hrun, by decide +kernel, howner, hpath, (hrefused 1 _).mpr ⟨0, howner, hpath⟩⟩

end KernelFront.Cache
