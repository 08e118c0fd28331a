import Mathlib.Logic.Relation
import KernelFront.Proofs.Cache.Steps

/-! # Compilation without a cache

Without a cache every callee is compiled anew when it is asked for, to any depth. A callee that is
not registered or fails is called through the host. Where functions ask for each other in circles
this never ends, so a bound on the depth is given: `Returns` says that some bound is enough, and
then the outcome does not depend on it.
-/

namespace KernelFront.Cache

/-- How a function is called whose compilation had this outcome. -/
def answerFor : Except CompileError Compiled → Resolution
  | .ok compiled => .native compiled.entryPoint
  | .error _ => .host

/-- The result of a compilation whose callees are compiled by a rule that may fail to end. -/
def conclude (callee : Key → Option (Except CompileError Compiled)) :
    Passes → Option (Except TypeError Compiled)
  | .done result => some result
  | .report _ next => conclude callee next
  | .ask name args next =>
      (callee ⟨name, args⟩).bind fun outcome => conclude callee (next (answerFor outcome))

/-- The outcome for the source of a function. -/
def outcomeOf (result : Except TypeError Compiled) : Except CompileError Compiled :=
  result.mapError .type

/-- Compile a key and all that is asked for, up to a depth of nested compilations. -/
def recompile (setting : Inference.Setting) (sources : Table String FunctionDef) :
    Nat → Key → Option (Except CompileError Compiled)
  | 0, _ => none
  | depth + 1, key =>
      match sources.get? key.name with
      | none => some (.error (.unknownFunction key.name))
      | some source =>
          (conclude (recompile setting sources depth) (compilation setting source key)).map
            outcomeOf

/-- Compiling the key and all that is asked for ends with this outcome. -/
def Returns (setting : Inference.Setting) (sources : Table String FunctionDef) (key : Key)
    (outcome : Except CompileError Compiled) : Prop :=
  ∃ depth, recompile setting sources depth key = some outcome

/-- The compilation comes to this result if everything that is asked for is compiled anew. -/
def Concludes (setting : Inference.Setting) (sources : Table String FunctionDef) (passes : Passes)
    (result : Except TypeError Compiled) : Prop :=
  ∃ depth, conclude (recompile setting sources depth) passes = some result

/-- The first compilation gets to the point where the second is left to do, if everything that is
asked for is compiled anew. -/
inductive Proceeds (setting : Inference.Setting) (sources : Table String FunctionDef)
    (start : Passes) : Passes → Prop where
  | refl : Proceeds setting sources start start
  | report {message : Message} {next : Passes}
      (before : Proceeds setting sources start (.report message next)) :
      Proceeds setting sources start next
  | ask {name : String} {args : List Ty} {next : Resolution → Passes}
      {outcome : Except CompileError Compiled}
      (before : Proceeds setting sources start (.ask name args next))
      (hreturns : Returns setting sources ⟨name, args⟩ outcome) :
      Proceeds setting sources start (next (answerFor outcome))

/-- The compilation of the first key asks for the second. -/
def Requests (setting : Inference.Setting) (sources : Table String FunctionDef)
    (key other : Key) : Prop :=
  ∃ source next, sources.get? key.name = some source ∧
    Proceeds setting sources (compilation setting source key) (.ask other.name other.args next)

/-- No compilation that the key leads to asks for itself, directly or through callees. -/
def Acyclic (setting : Inference.Setting) (sources : Table String FunctionDef) (key : Key) : Prop :=
  ∀ other, Relation.ReflTransGen (Requests setting sources) key other →
    ¬ Relation.TransGen (Requests setting sources) other other

variable {setting : Inference.Setting} {sources : Table String FunctionDef}

/-! ## The depth does not matter -/

theorem conclude_mono {callee more : Key → Option (Except CompileError Compiled)}
    (hmore : ∀ {key outcome}, callee key = some outcome → more key = some outcome)
    {passes : Passes} {result : Except TypeError Compiled}
    (hconclude : conclude callee passes = some result) : conclude more passes = some result := by
  induction passes with
  | done value => exact hconclude
  | report message next ih => exact ih hconclude
  | ask name args next ih =>
      obtain ⟨outcome, hcallee, hrest⟩ := Option.bind_eq_some_iff.mp hconclude
      exact Option.bind_eq_some_iff.mpr ⟨outcome, hmore hcallee, ih _ hrest⟩

theorem recompile_succ {depth : Nat} {key : Key} {outcome : Except CompileError Compiled}
    (hsome : recompile setting sources depth key = some outcome) :
    recompile setting sources (depth + 1) key = some outcome := by
  induction depth generalizing key outcome with
  | zero => cases hsome
  | succ depth ih =>
      unfold recompile at hsome ⊢
      split at hsome
      · exact hsome
      · obtain ⟨result, hresult, rfl⟩ := Option.map_eq_some_iff.mp hsome
        exact Option.map_eq_some_iff.mpr ⟨result, conclude_mono ih hresult, rfl⟩

theorem recompile_mono {depth more : Nat} (hle : depth ≤ more) {key : Key}
    {outcome : Except CompileError Compiled}
    (hsome : recompile setting sources depth key = some outcome) :
    recompile setting sources more key = some outcome := by
  induction hle with
  | refl => exact hsome
  | step _ ih => exact recompile_succ ih

theorem Returns.unique {key : Key} {outcome other : Except CompileError Compiled}
    (hfirst : Returns setting sources key outcome) (hsecond : Returns setting sources key other) :
    outcome = other := by
  obtain ⟨depth, hfirst⟩ := hfirst
  obtain ⟨more, hsecond⟩ := hsecond
  have hfirst := recompile_mono (Nat.le_max_left depth more) hfirst
  have hsecond := recompile_mono (Nat.le_max_right depth more) hsecond
  exact Option.some.inj (hfirst.symm.trans hsecond)

/-! ## Compilations in steps -/

theorem concludes_done {result other : Except TypeError Compiled} :
    Concludes setting sources (.done result) other ↔ other = result := by
  simp [Concludes, conclude, eq_comm]

theorem concludes_report {message : Message} {next : Passes}
    {result : Except TypeError Compiled} :
    Concludes setting sources (.report message next) result ↔
      Concludes setting sources next result :=
  .rfl

theorem concludes_ask {name : String} {args : List Ty} {next : Resolution → Passes}
    {result : Except TypeError Compiled} :
    Concludes setting sources (.ask name args next) result ↔
      ∃ outcome, Returns setting sources ⟨name, args⟩ outcome ∧
        Concludes setting sources (next (answerFor outcome)) result := by
  constructor
  · rintro ⟨depth, hconclude⟩
    obtain ⟨outcome, hcallee, hrest⟩ := Option.bind_eq_some_iff.mp hconclude
    exact ⟨outcome, ⟨depth, hcallee⟩, depth, hrest⟩
  · rintro ⟨outcome, ⟨depth, hcallee⟩, more, hrest⟩
    have hcallee := recompile_mono (Nat.le_max_left depth more) hcallee
    have hrest := conclude_mono (recompile_mono (Nat.le_max_right depth more)) hrest
    exact ⟨max depth more, Option.bind_eq_some_iff.mpr ⟨outcome, hcallee, hrest⟩⟩

/-- What a compilation concludes at a later point, it concludes from the start. -/
theorem Proceeds.concludes {start later : Passes} {result : Except TypeError Compiled}
    (hproceeds : Proceeds setting sources start later)
    (hlater : Concludes setting sources later result) :
    Concludes setting sources start result := by
  induction hproceeds with
  | refl => exact hlater
  | report _ ih => exact ih (concludes_report.mpr hlater)
  | ask _ hreturns ih => exact ih (concludes_ask.mpr ⟨_, hreturns, hlater⟩)

theorem returns_of_registered {key : Key} {source : FunctionDef}
    (hsource : sources.get? key.name = some source) {result : Except TypeError Compiled}
    (hconcludes : Concludes setting sources (compilation setting source key) result) :
    Returns setting sources key (outcomeOf result) := by
  obtain ⟨depth, hconclude⟩ := hconcludes
  refine ⟨depth + 1, ?_⟩
  simp only [recompile, hsource, hconclude, Option.map_some]

theorem returns_of_unregistered {key : Key} (hsource : sources.get? key.name = none) :
    Returns setting sources key (.error (.unknownFunction key.name)) := by
  refine ⟨1, ?_⟩
  simp only [recompile, hsource]

/-! ## What returns asks for nothing in circles -/

/-- A key that is asked for needs less depth. -/
theorem Requests.recompile_isSome {key other : Key} {depth : Nat}
    (hrequests : Requests setting sources key other)
    (hsome : (recompile setting sources depth key).isSome) :
    ∃ less < depth, (recompile setting sources less other).isSome := by
  obtain ⟨source, next, hsource, hproceeds⟩ := hrequests
  cases depth with
  | zero => cases hsome
  | succ depth =>
      refine ⟨depth, Nat.lt_succ_self depth, ?_⟩
      simp only [recompile, hsource, Option.isSome_map] at hsome
      have hlater : ∀ {later}, Proceeds setting sources (compilation setting source key) later →
          (conclude (recompile setting sources depth) later).isSome := by
        intro later hproceeds
        induction hproceeds with
        | refl => exact hsome
        | report _ ih => exact ih
        | ask _ hreturns ih =>
            obtain ⟨result, hresult⟩ := Option.isSome_iff_exists.mp ih
            obtain ⟨outcome, hcallee, hrest⟩ := Option.bind_eq_some_iff.mp hresult
            obtain rfl := Returns.unique hreturns ⟨depth, hcallee⟩
            exact Option.isSome_iff_exists.mpr ⟨result, hrest⟩
      obtain ⟨result, hresult⟩ := Option.isSome_iff_exists.mp (hlater hproceeds)
      obtain ⟨outcome, hcallee, _⟩ := Option.bind_eq_some_iff.mp hresult
      exact Option.isSome_iff_exists.mpr ⟨outcome, hcallee⟩

theorem recompile_of_transGen {key other : Key} {depth : Nat}
    (hpath : Relation.TransGen (Requests setting sources) key other)
    (hsome : (recompile setting sources depth key).isSome) :
    ∃ less < depth, (recompile setting sources less other).isSome := by
  induction hpath with
  | single hrequests => exact hrequests.recompile_isSome hsome
  | tail _ hrequests ih =>
      obtain ⟨less, hless, hmiddle⟩ := ih
      obtain ⟨least, hleast, hlast⟩ := hrequests.recompile_isSome hmiddle
      exact ⟨least, Nat.lt_trans hleast hless, hlast⟩

theorem not_transGen_of_recompile {key : Key} {depth : Nat}
    (hsome : (recompile setting sources depth key).isSome) :
    ¬ Relation.TransGen (Requests setting sources) key key := by
  induction depth using Nat.strongRecOn with
  | ind depth ih =>
      intro hcycle
      obtain ⟨less, hless, hagain⟩ := recompile_of_transGen hcycle hsome
      exact ih less hless hagain hcycle

theorem Returns.acyclic {key : Key} {outcome : Except CompileError Compiled}
    (hreturns : Returns setting sources key outcome) : Acyclic setting sources key := by
  obtain ⟨depth, hsome⟩ := hreturns
  have hsome : (recompile setting sources depth key).isSome := by simp [hsome]
  intro other hpath
  obtain rfl | hpath := Relation.reflTransGen_iff_eq_or_transGen.mp hpath
  · exact not_transGen_of_recompile hsome
  · obtain ⟨less, _, hother⟩ := recompile_of_transGen hpath hsome
    exact not_transGen_of_recompile hother

theorem Acyclic.of_requests {key other : Key} (hacyclic : Acyclic setting sources key)
    (hrequests : Requests setting sources key other) : Acyclic setting sources other :=
  fun last hpath => hacyclic last (hpath.head hrequests)

end KernelFront.Cache
