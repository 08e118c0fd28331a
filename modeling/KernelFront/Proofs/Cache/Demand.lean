import KernelFront.Proofs.Cache.Schedule
import KernelFront.Proofs.Cache.Session
import KernelFront.Proofs.Inference.Finiteness
import Mathlib

/-! # Demands without end

To compile a key may take another key, which takes a third one, and so on. Whatever a session asks
for belongs to one finite vocabulary, and a key that is asked for while it is compiled is answered
for at once. So a request that does not come to an end asks for arrays with more and more axes, as
the compilation of `growingSource` does.
-/

namespace KernelFront.Cache

variable {vocabulary : Vocabulary} {setting : Inference.Setting}
  {sources : Table String FunctionDef}

/-! ## The vocabulary of a session -/

/-- The result of an outcome has a type of the vocabulary. -/
def Entry.Within (vocabulary : Vocabulary) (entry : Entry) : Prop :=
  ∀ artifact, entry = .ok artifact → vocabulary.Spells artifact.compiled.signature.ret

/-- A compilation asks for nothing else than the vocabulary has, nor is its result anything else. -/
def Passes.Within (vocabulary : Vocabulary) (passes : Passes) : Prop :=
  passes.Obeys vocabulary.contract fun outcome =>
    ∀ compiled, outcome = .ok compiled → vocabulary.Spells compiled.signature.ret

/-- A suspended compilation keeps to the vocabulary if the answer does so. -/
def Caller.Within (vocabulary : Vocabulary) (caller : Caller) : Prop :=
  ∀ answer, vocabulary.contract.answer answer → Passes.Within vocabulary (caller.next answer)

/-- No source was replaced, and what is stored keeps to the vocabulary. -/
structure Shared.Within (vocabulary : Vocabulary) (sources : Table String FunctionDef)
    (shared : Shared) : Prop where
  sources : shared.sources = sources
  entries : ∀ key entry, shared.slots.get? key = some (.done entry) →
    Entry.Within vocabulary entry

/-- What a session does about a key of the vocabulary. -/
def Activity.Within (vocabulary : Vocabulary) : Activity → Prop
  | .seeking key | .claiming key | .asleep key => vocabulary.SpellsAll key.args
  | .reading claimed => vocabulary.SpellsAll claimed.key.args
  | .running _ passes => Passes.Within vocabulary passes
  | .settling _ entry => Entry.Within vocabulary entry
  | .releasing _ outcome | .notifying _ outcome =>
      ∀ entry, outcome = some entry → Entry.Within vocabulary entry
  | .unwinding => True
  | .replacing _ | .discarding _ | .announcing _ _ | .recording _ _ | .opening _ _
  | .counting _ _ => False

/-- A thread that keeps to the vocabulary, with the compilations that wait for it. -/
def Thread.Within (vocabulary : Vocabulary) : Thread → Prop
  | .idle => True
  | .active activity callers =>
      activity.Within vocabulary ∧ ∀ caller ∈ callers, caller.Within vocabulary

variable {key : Key} {callers : List Caller} {shared : Shared}

theorem answer_resolution {outcome : Option Entry}
    (houtcome : ∀ entry, outcome = some entry → Entry.Within vocabulary entry) :
    vocabulary.contract.answer (resolution key outcome).1 := by
  rcases outcome with _ | error | artifact
  · trivial
  · trivial
  · exact houtcome _ rfl artifact rfl

theorem within_deliver {outcome : Option Entry}
    (houtcome : ∀ entry, outcome = some entry → Entry.Within vocabulary entry)
    (hcallers : ∀ caller ∈ callers, caller.Within vocabulary) :
    (deliver key outcome callers).1.Within vocabulary := by
  cases callers with
  | nil => trivial
  | cons caller callers =>
      obtain ⟨hcaller, hcallers⟩ := List.forall_mem_cons.mp hcallers
      exact ⟨hcaller _ (answer_resolution houtcome), hcallers⟩

theorem within_deliverUnknown (hcallers : ∀ caller ∈ callers, caller.Within vocabulary) :
    (deliverUnknown key callers).1.Within vocabulary := by
  cases callers with
  | nil => trivial
  | cons caller callers =>
      obtain ⟨hcaller, hcallers⟩ := List.forall_mem_cons.mp hcallers
      exact ⟨hcaller _ trivial, hcallers⟩

namespace Shared.Within

theorem congr {other : Shared} (hshared : shared.Within vocabulary sources)
    (hsources : other.sources = shared.sources) (hslots : other.slots = shared.slots) :
    other.Within vocabulary sources := by
  refine ⟨hsources.trans hshared.sources, ?_⟩
  rw [hslots]
  exact hshared.entries

theorem grant (hshared : shared.Within vocabulary sources) (me : ThreadId) (key : Key) :
    Within vocabulary sources { (shared.stopWaiting me).countRun with
      slots := shared.slots.insert key (.inFlight me) } := by
  refine ⟨hshared.sources, fun other entry hslot => ?_⟩
  rw [Table.get?_insert] at hslot
  split at hslot
  · cases hslot
  · exact hshared.entries other entry hslot

theorem settle {entry : Entry} (hshared : shared.Within vocabulary sources)
    (hentry : Entry.Within vocabulary entry) (me : ThreadId) (key : Key) :
    (shared.settle me key entry).Within vocabulary sources := by
  refine ⟨(Shared.sources_settle ..).trans hshared.sources, fun other found hslot => ?_⟩
  rw [Shared.get?_settle] at hslot
  split at hslot
  · cases hslot
    exact hentry
  · exact hshared.entries other found hslot

theorem release (hshared : shared.Within vocabulary sources) (me : ThreadId) (key : Key) :
    (shared.release me key).Within vocabulary sources := by
  refine ⟨(Shared.sources_release ..).trans hshared.sources, fun other found hslot => ?_⟩
  rw [Shared.get?_release] at hslot
  split at hslot
  · cases hslot
  · exact hshared.entries other found hslot

end Shared.Within

/-- A step of a session keeps to the vocabulary. -/
theorem within_advance {me : ThreadId} {activity : Activity} {turn : Turn}
    (hfits : vocabulary.Fits setting)
    (hcovers : ∀ name source, sources.get? name = some source →
      vocabulary.CoversFunction setting.names source)
    (hshared : shared.Within vocabulary sources)
    (hthread : (Thread.active activity callers).Within vocabulary)
    (hmoves : advance setting me shared callers activity = some turn) :
    turn.shared.Within vocabulary sources ∧ turn.thread.Within vocabulary := by
  obtain ⟨hactivity, hcallers⟩ := hthread
  have hnothing (entry : Entry) (hentry : none = some entry) : Entry.Within vocabulary entry := by
    cases hentry
  cases activity with
  | replacing | discarding | announcing | recording | «opening» | counting => cases hactivity
  | asleep => cases hmoves
  | seeking key =>
      simp only [advance] at hmoves
      split at hmoves <;> cases hmoves
      · exact ⟨hshared, hactivity, hcallers⟩
      · exact ⟨hshared, within_deliverUnknown hcallers⟩
  | claiming key =>
      cases lookTurn_of_advance hmoves with
      | grant => exact ⟨hshared.grant me key, hactivity, hcallers⟩
      | ready hdone =>
          refine ⟨hshared.congr rfl rfl, within_deliver ?_ hcallers⟩
          rintro _ ⟨⟩
          exact hshared.entries key _ hdone
      | cycle => exact ⟨hshared.congr rfl rfl, within_deliver hnothing hcallers⟩
      | wait => exact ⟨hshared.congr rfl rfl, hactivity, hcallers⟩
  | reading claimed =>
      simp only [advance] at hmoves
      cases hmoves
      refine ⟨hshared, ?_, hcallers⟩
      split
      · rename_i source hsource
        rw [hshared.sources] at hsource
        exact Vocabulary.obeys_compile hfits (hcovers _ source hsource) hactivity.spells
      · rintro _ ⟨⟩
  | running claimed passes =>
      cases hmoves
      refine ⟨hshared, ?_⟩
      cases passes with
      | report message next => exact ⟨hactivity, hcallers⟩
      | ask callee args next =>
          exact ⟨hactivity.1, List.forall_mem_cons.mpr ⟨hactivity.2, hcallers⟩⟩
      | done result =>
          cases claimed with
          | none => cases result <;> trivial
          | some claimed =>
              refine ⟨?_, hcallers⟩
              rintro artifact hartifact
              cases result with
              | error => cases hartifact
              | ok compiled =>
                  cases hartifact
                  exact hactivity compiled rfl
  | settling claimed entry =>
      cases hmoves
      refine ⟨hshared.settle hactivity _ _, ?_, hcallers⟩
      rintro _ ⟨⟩
      exact hactivity
  | releasing claimed outcome =>
      cases hmoves
      exact ⟨hshared.release _ _, hactivity, hcallers⟩
  | notifying claimed outcome =>
      cases outcome with
      | none =>
          cases hmoves
          exact ⟨hshared, trivial, hcallers⟩
      | some entry =>
          cases hmoves
          exact ⟨hshared, within_deliver hactivity hcallers⟩
  | unwinding =>
      rcases callers with _ | ⟨⟨_ | claimed, next⟩, callers⟩ <;> cases hmoves
      · exact ⟨hshared, trivial⟩
      · exact ⟨hshared, trivial, (List.forall_mem_cons.mp hcallers).2⟩
      · exact ⟨hshared, hnothing, (List.forall_mem_cons.mp hcallers).2⟩

/-- Any number of steps of a session keep to the vocabulary. -/
theorem Session.within_of_steps {session last : Session} (hsteps : Steps setting session last)
    (hfits : vocabulary.Fits setting)
    (hcovers : ∀ name source, sources.get? name = some source →
      vocabulary.CoversFunction setting.names source)
    (hshared : session.shared.Within vocabulary sources)
    (hthread : session.thread.Within vocabulary) :
    last.shared.Within vocabulary sources ∧ last.thread.Within vocabulary := by
  induction hsteps with
  | refl => exact ⟨hshared, hthread⟩
  | tail _ hnext ih =>
      obtain ⟨moves⟩ := hnext
      exact within_advance hfits hcovers ih.1 ih.2 moves

/-! ## Chains of demands -/

/-- On behalf of a request the session asks for a key that has to be compiled. It is in the middle
of compiling the outer keys, each of which asked for the one before it in the list. -/
def Demands (setting : Inference.Setting) (shared : Shared) (root : Key) (outer : List Key)
    (key : Key) : Prop :=
  ∃ session callers, Session.Steps setting (.start shared (.compile root)) session ∧
    session.thread = .active (.seeking key) callers ∧
    callers.map (fun caller => caller.claimed.map Claimed.key) = outer.map some ∧
    session.shared.Lacks key

/-- Moreover, the key is never answered for. -/
def Endless (setting : Inference.Setting) (shared : Shared) (root : Key) (outer : List Key)
    (key : Key) : Prop :=
  ∃ session callers, Session.Steps setting (.start shared (.compile root)) session ∧
    callers.map (fun caller => caller.claimed.map Claimed.key) = outer.map some ∧
    session.Seeks key callers outer ∧ ¬ session.Ends setting callers outer

variable {root : Key} {outer : List Key}

theorem Endless.demands (hendless : Endless setting shared root outer key) :
    Demands setting shared root outer key ∧ key ∉ outer := by
  obtain ⟨session, callers, hsteps, hcallers, hseeks, hnever⟩ := hendless
  obtain hends | ⟨hlacks, -⟩ := hseeks.ends_or_nests setting
  · exact absurd hends hnever
  · exact ⟨⟨session, callers, hsteps, hseeks.thread, hcallers, hlacks⟩,
      hseeks.owns.not_mem hlacks.slot⟩

theorem Endless.exists_next (hendless : Endless setting shared root outer key) :
    ∃ callee, Endless setting shared root (key :: outer) callee := by
  obtain ⟨session, callers, hsteps, hcallers, hseeks, hnever⟩ := hendless
  obtain hends | ⟨-, child, callee, caller, hnests⟩ := hseeks.ends_or_nests setting
  · exact absurd hends hnever
  · refine ⟨callee, child, caller :: callers, hsteps.trans hnests.steps, ?_, hnests.seeks,
      hnests.endless⟩
    rw [List.map_cons, List.map_cons, hnests.claimed, hcallers]

theorem exists_answer {seen : List Event} {reply : Reply} (hreply : .replied reply ∈ seen) :
    ∃ answer, Answer.ofEvents? seen = some answer := by
  cases hanswer : Answer.ofEvents? seen with
  | some answer => exact ⟨answer, rfl⟩
  | none =>
      simp only [Answer.ofEvents?, Option.bind_eq_bind, Option.bind_eq_none_iff, Option.pure_def,
        reduceCtorEq, imp_false, ← Option.eq_none_iff_forall_ne_some,
        List.findSome?_eq_none_iff] at hanswer
      cases hanswer _ hreply

/-- A request to a cache that nobody uses goes on for ever unless it comes to an end. -/
theorem endless_of_serve (hidle : ∀ key, shared.owner? key = none)
    (hnever : ∀ steps, serve setting steps shared (.compile root) = none) :
    Endless setting shared root [] root := by
  refine ⟨_, [], .refl, rfl, ⟨rfl, hidle⟩, ?_⟩
  rintro ⟨last, hsteps, ⟨hthread, reply, hreply⟩, -⟩
  obtain ⟨steps, hrun⟩ := Session.exists_runThread hsteps hthread
  obtain ⟨answer, hanswer⟩ := exists_answer hreply
  have hserve : serve setting steps shared (.compile root) = some (last.shared, answer) := by
    simp only [Session.start] at hrun
    simp only [serve, hrun, Option.bind_eq_bind, Option.bind_some, hanswer, Option.pure_def]
  rw [hnever steps] at hserve
  cases hserve

/-- The keys before a place in a sequence, the last one first. -/
def before (demand : Nat → Key) (n : Nat) : List Key := (List.range n).reverse.map demand

theorem before_succ (demand : Nat → Key) (n : Nat) :
    before demand (n + 1) = demand n :: before demand n := by
  simp [before, List.range_succ]

theorem mem_before {demand : Nat → Key} {m n : Nat} (hlt : m < n) : demand m ∈ before demand n :=
  List.mem_map_of_mem (by simpa using hlt)

/-- What goes on for ever is a chain of compilations, each of which asks for the next one. -/
theorem Endless.exists_chain (hendless : Endless setting shared root [] root) :
    ∃ demand : Nat → Key, demand 0 = root ∧
      ∀ n, Endless setting shared root (before demand n) (demand n) := by
  choose next hnext using fun outer key => @Endless.exists_next setting key shared root outer
  -- The outer keys and the innermost one, with the proof that it goes on.
  let chain : Nat → {link : List Key × Key // Endless setting shared root link.1 link.2} :=
    Nat.rec ⟨([], root), hendless⟩ fun _ link =>
      ⟨(link.1.2 :: link.1.1, next _ _ link.2), hnext _ _ link.2⟩
  have hbefore (n : Nat) : (chain n).1.1 = before (fun m => (chain m).1.2) n := by
    induction n with
    | zero => rfl
    | succ n ih =>
        rw [before_succ, ← ih]
  refine ⟨fun n => (chain n).1.2, rfl, fun n => ?_⟩
  rw [← hbefore]
  exact (chain n).2

/-- A request that is never answered is the first of ever new demands. -/
theorem exists_demands_of_serve (hidle : ∀ key, shared.owner? key = none)
    (hnever : ∀ steps, serve setting steps shared (.compile root) = none) :
    ∃ demand : Nat → Key, demand 0 = root ∧ Function.Injective demand ∧
      ∀ n, Demands setting shared root (before demand n) (demand n) := by
  obtain ⟨demand, hroot, hchain⟩ := (endless_of_serve hidle hnever).exists_chain
  refine ⟨demand, hroot, ?_, fun n => (hchain n).demands.1⟩
  -- No key is asked for while it is compiled.
  apply Function.Injective.of_lt_imp_ne
  intro m n hlt heq
  exact (hchain n).demands.2 (heq ▸ mem_before hlt)

/-- Requests that lead to ever more compilations inside one another are not answered. -/
theorem serve_eq_none_of_demands
    (hdeep : ∀ depth, ∃ outer key, depth ≤ outer.length ∧ Demands setting shared root outer key)
    (steps : Nat) : serve setting steps shared (.compile root) = none := by
  obtain ⟨outer, key, hdepth, session, callers, hsteps, hthread, hcallers, -⟩ := hdeep (steps + 1)
  cases hrun : runThread setting steps shared (.start (.compile root)) [] with
  | none => simp only [serve, hrun, Option.bind_eq_bind, Option.bind_none]
  | some result =>
      have hshallow := Session.depth_le_of_runThread hsteps hrun
      have hlength := congrArg List.length hcallers
      rw [List.length_map, List.length_map] at hlength
      rw [hthread, Thread.depth, hlength] at hshallow
      have hstart : (Session.start shared (.compile root)).thread.depth = 0 := rfl
      omega

/-! ## The number of axes -/

/-- The result type of an outcome that a slot keeps. -/
def Slot.result? : Slot → Option Ty
  | .done (.ok artifact) => some artifact.compiled.signature.ret
  | _ => none

/-- All demands of a request are for registered functions and belong to one finite vocabulary. -/
theorem exists_vocabulary (hdtypes : setting.names.dtypes.Finite) (shared : Shared) (root : Key) :
    ∃ vocabulary : Vocabulary, vocabulary.IsFinite ∧
      ∀ outer key, Demands setting shared root outer key →
        shared.isRegistered key.name = true ∧ vocabulary.SpellsAll key.args := by
  let functions := {func | ∃ name, shared.sources.get? name = some func}
  have hfunctions : functions.Finite := by
    refine ((Table.finite_graph shared.sources).image Prod.snd).subset ?_
    rintro func ⟨name, hfunc⟩
    exact ⟨(name, func), hfunc, rfl⟩
  let results := {ty | ∃ key slot, shared.slots.get? key = some slot ∧ slot.result? = some ty}
  have hresults : results.Finite := by
    have hall := (Table.finite_graph shared.slots).image fun entry => entry.2.result?
    refine (hall.preimage (Option.some_injective _).injOn).subset ?_
    rintro ty ⟨key, slot, hslot, hty⟩
    exact ⟨(key, slot), hslot, hty⟩
  obtain ⟨vocabulary, hfinite, hlength, hspells, hfits, hcovers⟩ :=
    Vocabulary.exists_covers hdtypes ((List.finite_toSet root.args).union hresults) hfunctions
      root.args.length
  refine ⟨vocabulary, hfinite, ?_⟩
  rintro outer key ⟨session, callers, hsteps, hthread, -, hlacks⟩
  have hshared : shared.Within vocabulary shared.sources := by
    refine ⟨rfl, ?_⟩
    rintro key _ hslot artifact rfl
    exact hspells _ (.inr ⟨key, _, hslot, rfl⟩)
  have hroot : vocabulary.SpellsAll root.args := ⟨hlength, fun ty hty => hspells ty (.inl hty)⟩
  have hsources (name : String) (source : FunctionDef)
      (hsource : shared.sources.get? name = some source) :
      vocabulary.CoversFunction setting.names source :=
    hcovers source ⟨name, hsource⟩
  obtain ⟨hafter, hactive⟩ := Session.within_of_steps hsteps hfits hsources hshared
    ⟨hroot, List.forall_mem_nil _⟩
  have hregistered := hlacks.registered
  rw [Shared.isRegistered, hafter.sources] at hregistered
  rw [hthread] at hactive
  exact ⟨hregistered, hactive.1⟩

/-- With a bound on the number of axes a request makes finitely many demands. -/
theorem finite_demands (hdtypes : setting.names.dtypes.Finite) (shared : Shared) (root : Key)
    (axes : Nat) :
    {key | (∃ outer, Demands setting shared root outer key) ∧
      ∀ ty ∈ key.args, ty.axes ≤ axes}.Finite := by
  obtain ⟨vocabulary, hfinite, hspelled⟩ := exists_vocabulary hdtypes shared root
  have hnames : {name | shared.isRegistered name = true}.Finite := by
    refine ((Table.finite_graph shared.sources).image Prod.fst).subset ?_
    intro name hname
    obtain ⟨func, hfunc⟩ := Option.isSome_iff_exists.mp hname
    exact ⟨(name, func), hfunc, rfl⟩
  refine (hnames.image2 Key.mk (Vocabulary.finite_spelledAll hfinite axes)).subset ?_
  rintro ⟨name, args⟩ ⟨⟨outer, hdemands⟩, haxes⟩
  obtain ⟨hregistered, hargs⟩ := hspelled outer _ hdemands
  exact ⟨name, hregistered, args, ⟨hargs, haxes⟩, rfl⟩

/-- Ever new demands are for arrays with more axes than any bound. -/
theorem exists_axes_of_demands (hdtypes : setting.names.dtypes.Finite) {demand : Nat → Key}
    (hinjective : Function.Injective demand)
    (hdemands : ∀ n, Demands setting shared root (before demand n) (demand n)) (axes : Nat) :
    ∃ n, ∃ ty ∈ (demand n).args, axes < ty.axes := by
  by_contra hbounded
  push Not at hbounded
  apply Set.infinite_range_of_injective hinjective
  refine (finite_demands hdtypes shared root axes).subset ?_
  rintro _ ⟨n, rfl⟩
  exact ⟨⟨_, hdemands n⟩, hbounded n⟩

/-! ## Requests with bounded demands -/

theorem finite_steps_of_idle (seen : List Event) :
    {last | Session.Steps setting ⟨shared, .idle, seen⟩ last}.Finite := by
  refine (Set.finite_singleton (Session.mk shared .idle seen)).subset ?_
  intro last hsteps
  obtain hsame | ⟨next, ⟨⟩, -⟩ := hsteps.cases_head
  exact hsame.symm

/-- A session that comes to rest goes through finitely many states. -/
theorem finite_steps_of_runThread {steps : Nat} {session : Session} {result : Shared × List Event}
    (hrun : runThread setting steps session.shared session.thread session.seen = some result) :
    {last | Session.Steps setting session last}.Finite := by
  induction steps generalizing session with
  | zero =>
      obtain ⟨shared, thread, seen⟩ := session
      cases thread with
      | idle => exact finite_steps_of_idle seen
      | active activity callers => cases hrun
  | succ steps ih =>
      obtain ⟨shared, thread, seen⟩ := session
      cases thread with
      | idle => exact finite_steps_of_idle seen
      | active activity callers =>
          simp only [runThread] at hrun
          split at hrun
          · rename_i turn hturn
            have hrest := @ih ⟨turn.shared, turn.thread, turn.events.reverse ++ seen⟩ hrun
            refine (hrest.insert ⟨shared, .active activity callers, seen⟩).subset ?_
            intro last hsteps
            obtain hsame | ⟨next, ⟨moves⟩, hnext⟩ := hsteps.cases_head
            · exact .inl hsame.symm
            · cases hturn.symm.trans moves
              exact .inr hnext
          · cases hrun

/-- What a session asks for, with the types of the arguments. -/
def Session.asked (session : Session) : List Ty :=
  match session.thread with
  | .active (.seeking key) _ => key.args
  | _ => []

/-- A request that is answered bounds the axes of what is asked for on the way. -/
theorem exists_bound_of_serve {steps : Nat} {result : Shared × Answer}
    (hserve : serve setting steps shared (.compile root) = some result) :
    ∃ axes, ∀ outer key, Demands setting shared root outer key →
      ∀ ty ∈ key.args, ty.axes ≤ axes := by
  obtain ⟨ended, hrun, -⟩ := Option.bind_eq_some_iff.mp hserve
  have hsessions := @finite_steps_of_runThread setting steps (.start shared (.compile root)) _ hrun
  have htypes := hsessions.biUnion fun session _ => List.finite_toSet session.asked
  obtain ⟨axes, haxes⟩ := (htypes.image Ty.axes).bddAbove
  refine ⟨axes, ?_⟩
  rintro outer key ⟨session, callers, hsteps, hthread, -⟩ ty hty
  apply haxes
  apply Set.mem_image_of_mem
  apply Set.mem_biUnion hsteps
  rw [Session.asked, hthread]
  exact hty

/-- With a bound on the axes of what is asked for, a request to a cache that nobody uses is
answered. -/
theorem exists_serve_of_bounded (hdtypes : setting.names.dtypes.Finite)
    (hidle : ∀ key, shared.owner? key = none) {axes : Nat}
    (hbounded : ∀ outer key, Demands setting shared root outer key →
      ∀ ty ∈ key.args, ty.axes ≤ axes) :
    ∃ steps result, serve setting steps shared (.compile root) = some result := by
  by_contra hunanswered
  have hnever (steps : Nat) : serve setting steps shared (.compile root) = none :=
    Option.eq_none_iff_forall_ne_some.mpr fun result hserve =>
      hunanswered ⟨steps, result, hserve⟩
  obtain ⟨demand, -, hinjective, hdemands⟩ := exists_demands_of_serve hidle hnever
  obtain ⟨n, ty, hty, hmore⟩ := exists_axes_of_demands hdtypes hinjective hdemands axes
  exact absurd (hbounded _ _ (hdemands n) ty hty) (Nat.not_le_of_gt hmore)

/-! ## A function with ever new demands -/

/-- A function that calls itself with one more axis: `def f(a): f(a[None])`. -/
def growingSource : FunctionDef where
  name := "f"
  args := ["a"]
  body := [.expr {} (.call {} (.name {} "f" .load)
    [.subscript {} (.name {} "a" .load) (.index {} (.name {} "None" .load)) .load] [])]

/-- A cache with that function and nothing else. -/
def growing : Shared := Shared.empty.replaceSource growingSource

/-- The function for an array with that many axes and one more. -/
def growingKey (rank : Nat) : Key := ⟨"f", [.strided .float64 (rank + 1)]⟩

theorem growingKey_injective : Function.Injective growingKey := by
  intro rank other heq
  simpa [growingKey, Ty.strided] using heq

theorem firstQuestion?_growing (rank : Nat) :
    Session.firstQuestion? (growingSource.compile usualSetting ⟨(growingKey rank).args, none⟩).run =
      some (growingKey (rank + 1)) := by
  unfold growingKey
  cbv

/-- Compiling the function leads to every number of axes. -/
theorem exists_growing (rank : Nat) :
    ∃ session callers,
      Session.Steps usualSetting (.start growing (.compile (growingKey 0))) session ∧
      session.thread = .active (.seeking (growingKey rank)) callers ∧
      callers.map (fun caller => caller.claimed.map Claimed.key) =
        (before growingKey rank).map some ∧
      session.shared.sources = growing.sources ∧
      ∀ more, rank ≤ more → session.shared.slots.get? (growingKey more) = none := by
  induction rank with
  | zero => exact ⟨_, [], .refl, rfl, rfl, rfl, fun _ _ => rfl⟩
  | succ rank ih =>
      obtain ⟨⟨shared, thread, seen⟩, callers, hsteps, hthread, hcallers, hsources, hslots⟩ := ih
      cases hthread
      have hsource : shared.sources.get? (growingKey rank).name = some growingSource := by
        rw [hsources]
        rfl
      have hslot := hslots rank (Nat.le_refl rank)
      have hregistered : shared.isRegistered (growingKey rank).name = true := by
        simp only [Shared.isRegistered, Table.contains, hsource, Option.isSome_some]
      have hseeking := hsteps.trans (Session.steps_seeking hregistered)
      obtain ⟨middle, hclaiming⟩ := Session.steps_claiming hslot hsource
      obtain ⟨next, later, hrunning⟩ := Session.steps_running (firstQuestion?_growing rank)
      refine ⟨_, _, (hseeking.trans hclaiming).trans hrunning, rfl, ?_, ?_, ?_⟩
      · rw [before_succ, List.map_cons, List.map_cons, hcallers]
        rfl
      · rw [Shared.claim, hslot]
        exact hsources
      · intro more hmore
        have hother : growingKey more ≠ growingKey rank :=
          growingKey_injective.ne (Nat.ne_of_gt hmore)
        have hfree := hslots more (Nat.le_of_succ_le hmore)
        rw [Shared.claim, hslot]
        exact (Table.get?_insert ..).trans ((if_neg hother).trans hfree)

theorem demands_growing (rank : Nat) :
    Demands usualSetting growing (growingKey 0) (before growingKey rank) (growingKey rank) := by
  obtain ⟨session, callers, hsteps, hthread, hcallers, hsources, hslots⟩ := exists_growing rank
  refine ⟨session, callers, hsteps, hthread, hcallers, ?_, hslots rank (Nat.le_refl rank)⟩
  rw [Shared.isRegistered, hsources]
  rfl

theorem serve_growing (steps : Nat) :
    serve usualSetting steps growing (.compile (growingKey 0)) = none := by
  apply serve_eq_none_of_demands
  intro depth
  exact ⟨_, _, by simp [before], demands_growing depth⟩

/-- The array module of the usual imports names thirteen element types. -/
theorem finite_standard_dtypes : Host.Imports.standard.toNamespace.dtypes.Finite := by
  let named : List Ty := [.bool, .int8, .int16, .int32, .int64, .uint8, .uint16, .uint32, .uint64,
    .float32, .float64, .complex64, .complex128]
  refine (List.finite_toSet named).subset ?_
  rintro ty ⟨owner, attr, hattr⟩
  change Host.moduleAttribute? owner attr = some (.dtype ty) at hattr
  unfold Host.moduleAttribute? at hattr
  split at hattr
  · cases hattr
  · split at hattr
    · cases hattr
    · split at hattr
      · rename_i hnamed
        cases hattr
        unfold Host.dtypeNamed? at hnamed
        split at hnamed <;> cases hnamed <;> simp [named]
      · split at hattr
        · cases hattr
        · split at hattr <;> cases hattr

/-! ## Which requests come to an end -/

/-- A request to a cache that nobody uses is never answered exactly if it is the first of ever new
demands, each made while the one before it is compiled. If the modules of the host name finitely
many element types, then it is answered exactly if there is a bound on the axes of the arrays that
are asked for on the way. -/
theorem serve_ends_iff_bounded_axes (hidle : ∀ key, shared.owner? key = none) (root : Key) :
    ((∀ steps, serve setting steps shared (.compile root) = none) ↔
      ∃ demand : Nat → Key, demand 0 = root ∧ Function.Injective demand ∧
        ∀ n, Demands setting shared root (before demand n) (demand n)) ∧
    (setting.names.dtypes.Finite →
      ((∃ steps result, serve setting steps shared (.compile root) = some result) ↔
        ∃ axes, ∀ outer key, Demands setting shared root outer key →
          ∀ ty ∈ key.args, ty.axes ≤ axes)) := by
  refine ⟨⟨exists_demands_of_serve hidle, ?_⟩, fun hdtypes => ⟨?_, ?_⟩⟩
  · rintro ⟨demand, -, -, hdemands⟩
    apply serve_eq_none_of_demands
    intro depth
    refine ⟨before demand depth, demand depth, ?_, hdemands depth⟩
    simp [before]
  · rintro ⟨steps, result, hserve⟩
    exact exists_bound_of_serve hserve
  · rintro ⟨axes, hbounded⟩
    exact exists_serve_of_bounded hdtypes hidle hbounded

theorem serve_ends_iff_bounded_axes_growing :
    (∀ key, growing.owner? key = none) ∧
      (∃ demand : Nat → Key, demand 0 = growingKey 0 ∧ Function.Injective demand ∧
        ∀ n, Demands usualSetting growing (growingKey 0) (before demand n) (demand n)) ∧
      Host.Imports.standard.toNamespace.dtypes.Finite ∧
      ¬ ∃ axes, ∀ outer key, Demands usualSetting growing (growingKey 0) outer key →
        ∀ ty ∈ key.args, ty.axes ≤ axes := by
  have hidle (key : Key) : growing.owner? key = none := rfl
  obtain ⟨hnever, hends⟩ := @serve_ends_iff_bounded_axes usualSetting growing hidle (growingKey 0)
  refine ⟨hidle, hnever.mp serve_growing, finite_standard_dtypes, ?_⟩
  intro hbounded
  obtain ⟨steps, result, hserve⟩ := (hends finite_standard_dtypes).mpr hbounded
  rw [serve_growing steps] at hserve
  cases hserve

/-- The function is compiled for ever more axes, and the request is never answered. -/
theorem growing_never_ends :
    Function.Injective growingKey ∧
      (∀ rank, Demands usualSetting growing (growingKey 0) (before growingKey rank)
        (growingKey rank)) ∧
      ∀ steps, serve usualSetting steps growing (.compile (growingKey 0)) = none :=
  ⟨growingKey_injective, demands_growing, serve_growing⟩

end KernelFront.Cache
