import KernelFront.Proofs.Annotation
import KernelFront.Proofs.Inference.Reads
import KernelFront.Proofs.Inference.Trail
import KernelFront.Proofs.InternalErrors
import KernelFront.Proofs.LocalNames

/-! # Locals are typed by their first store

A local has no type until something is stored in it, and may not be read before. The first store in
the order of the source gives it its type, which it keeps. Whatever comes later is converted to it.
-/

namespace KernelFront

/-- Every binding that has a type keeps it, that of the result apart. -/
def SymbolTable.KeepsTypes (before after : SymbolTable) : Prop :=
  ∀ id ty, id ≠ Inference.Scope.resultSlot → before.typeOf? id = some ty →
    after.typeOf? id = some ty

theorem SymbolTable.KeepsTypes.trans {before middle after : SymbolTable}
    (hfirst : before.KeepsTypes middle) (hsecond : middle.KeepsTypes after) :
    before.KeepsTypes after :=
  fun id ty hid hty => hsecond id ty hid (hfirst id ty hid hty)

namespace Inference

open Scope (resultSlot)

/-! ## What acts and entries say -/

namespace Act

/-- The expressions that are visited, with all their parts. -/
def nodes : Act → List Expr
  | .visit es => Expr.nodesAll es
  | _ => []

/-- The act reads a name. -/
def Reads (name : String) (act : Act) : Prop := ∃ note, .name note name .load ∈ act.nodes

/-- Whether the act stores in a name itself, and not in a part of its value. -/
def stores (name : String) : Act → Bool
  | .store place => place.asName = some name
  | _ => false

end Act

namespace Entry

/-- Whether a value was taken apart whose type records fewer constants than there are places, which
is to say fewer than its own size. -/
def isShort (entry : Entry) : Bool :=
  match entry.act with
  | .split places =>
      (entry.ty.bind Ty.constantElements).any fun items => items.length < places.length
  | _ => false

/-- What an act does to the scope that it finds. -/
inductive Follows (before : Scope) : Entry → Prop where
  | visit {es : List Expr} {after : Scope} (hextends : before.Extends after)
      (hreadable : Readable before (Expr.nodesAll es)) :
      Follows before { act := .visit es, ty := none, scope := after }
  | split {places : List Expr} {ty : Option Ty} :
      Follows before { act := .split places, ty, scope := before }
  /-- A name without a type takes the type of what is stored in it. -/
  | take {place : Expr} {name : String} {id : SymbolId} {ty : Ty}
      (hname : place.asName = some name) (hlookup : before.symbols.lookup name = some id)
      (huntyped : (before.symbols.get? id).any fun var => var.ty.isNone) :
      Follows before { act := .store place, ty := some ty, scope := before.setType id ty }
  /-- Every other place has a type, which it keeps. -/
  | keep {place : Expr} {ty : Option Ty}
      (htyped : ∀ name, place.asName = some name →
        ∃ ty, before.symbols.typeOfName? name = some ty) :
      Follows before { act := .store place, ty, scope := before }
  | result {ty : Ty} :
      Follows before { act := .result, ty := none, scope := before.setType resultSlot ty }

end Entry

/-- Entries that follow each other from one scope to another. -/
inductive Path : Scope → List Entry → Scope → Prop where
  | nil (scope : Scope) : Path scope [] scope
  | cons {before after : Scope} {entry : Entry} {trail : List Entry} (hstep : entry.Follows before)
      (hrest : Path entry.scope trail after) : Path before (entry :: trail) after

namespace Path

variable {before middle after : Scope} {first second : List Entry}

theorem append (hfirst : Path before first middle) (hsecond : Path middle second after) :
    Path before (first ++ second) after := by
  induction hfirst with
  | nil => exact hsecond
  | cons hstep _ ih => exact .cons hstep (ih hsecond)

theorem split (hpath : Path before (first ++ second) after) :
    ∃ middle, Path before first middle ∧ Path middle second after := by
  induction first generalizing before with
  | nil => exact ⟨before, .nil before, hpath⟩
  | cons entry first ih =>
      cases hpath with
      | cons hstep hrest =>
          obtain ⟨middle, hfirst, hsecond⟩ := ih hrest
          exact ⟨middle, .cons hstep hfirst, hsecond⟩

end Path

/-! ## Inference follows the acts of the source -/

section Following

variable {setting : Setting} {span : Span} {before middle after : Scope}

/-- The entries follow each other and are about these acts of the source, in their order. Acts are
left out only where constants are missing. -/
structure Performs (before : Scope) (acts : List Act) (trail : List Entry) (after : Scope) :
    Prop where
  path : Path before trail after
  sublist : (trail.map Entry.act).Sublist acts
  complete : (∀ entry ∈ trail, entry.isShort = false) → trail.map Entry.act = acts

namespace Performs

theorem nil (scope : Scope) : Performs scope [] [] scope := ⟨.nil scope, .slnil, fun _ => rfl⟩

theorem one {entry : Entry} (hstep : entry.Follows before) :
    Performs before [entry.act] [entry] entry.scope :=
  ⟨.cons hstep (.nil _), .refl _, fun _ => rfl⟩

theorem append {first second : List Act} {trail rest : List Entry}
    (hfirst : Performs before first trail middle) (hsecond : Performs middle second rest after) :
    Performs before (first ++ second) (trail ++ rest) after := by
  refine ⟨hfirst.path.append hsecond.path, ?_, fun hfull => ?_⟩
  · rw [List.map_append]
    exact hfirst.sublist.append hsecond.sublist
  · obtain ⟨hfull, hrest⟩ := List.forall_mem_append.mp hfull
    rw [List.map_append, hfirst.complete hfull, hsecond.complete hrest]

theorem cons {act : Act} {entry : Entry} {acts : List Act} {trail : List Entry}
    (hstep : entry.Follows before) (hact : entry.act = act)
    (hrest : Performs entry.scope acts trail after) :
    Performs before (act :: acts) (entry :: trail) after :=
  hact ▸ (one hstep).append hrest

end Performs

theorem follows_visit {es results : List Expr}
    (hreach : Pass.Reaches (inferAll setting es) before results after) :
    Entry.Follows before { act := .visit es, ty := none, scope := after } :=
  .visit ((followed_extends setting).inferAll hreach) (readable_inferAll hreach)

theorem follows_visitOne {e result : Expr}
    (hreach : Pass.Reaches (inferExpr setting e) before result after) :
    Entry.Follows before { act := .visit [e], ty := none, scope := after } :=
  follows_visit (reaches_inferAll_singleton.mpr ⟨result, hreach, rfl⟩)

/-- Something of a type is stored in a visited place: a symbol without a type takes the type, and
every other place has a type. -/
def Stored (before : Scope) (target : Expr) (ty : Ty) (after : Scope) : Prop :=
  (∃ id, target.binding = some (.symbol id) ∧
    ((before.symbols.get? id).any fun var => var.ty.isNone) ∧ after = before.setType id ty) ∨
  after = before ∧ ∃ own, target.typeIn? before.symbols = some own

theorem stored_typeStore {target value : Expr} {stmt : Stmt}
    (hreach : Pass.Reaches (typeStore target value span) before stmt after) :
    ∃ ty, value.typeIn? before.symbols = some ty ∧ Stored before target ty after := by
  cases storeOutcome_of_reaches hreach with
  | fresh hbinding huntyped hvalue => exact ⟨_, hvalue, .inl ⟨_, hbinding, huntyped, rfl⟩⟩
  | settled hown hvalue => exact ⟨_, hvalue, .inr ⟨rfl, _, hown⟩⟩

theorem stored_bindElement {target : Expr} {element : Ty} {result : Unit}
    (hreach : Pass.Reaches (bindElement target element) before result after) :
    Stored before target element after := by
  cases bindOutcome_of_reaches hreach with
  | fresh hbinding huntyped => exact .inl ⟨_, hbinding, huntyped, rfl⟩
  | settled hown => exact .inr ⟨rfl, _, hown⟩

/-- A place that was visited is a name, or it has a type of its own. -/
theorem follows_store {place target : Expr} {ty : Ty} (hplace : place.IsPlace .store)
    (htarget : Pass.Reaches (inferExpr setting place) before target middle)
    (hstored : Stored middle target ty after) :
    Entry.Follows middle { act := .store place, ty := some ty, scope := after } := by
  cases hname : place.asName with
  | none =>
      obtain ⟨var, hvar⟩ := value_of_place hplace hname htarget
      rcases hstored with ⟨id, hid, -, -⟩ | ⟨rfl, -⟩
      · cases hvar.symm.trans hid
      · refine .keep fun name hother => ?_
        cases hname.symm.trans hother
  | some name =>
      obtain ⟨note, access, rfl⟩ := Expr.eq_name_of_asName hname
      simp only [inferExpr] at htarget
      obtain ⟨id, rfl, hlookup, -⟩ := reaches_visitName htarget
      rcases hstored with ⟨_, hid, huntyped, rfl⟩ | ⟨rfl, own, hown⟩
      · cases hid
        exact .take hname hlookup huntyped
      · refine .keep fun other hother => ⟨own, ?_⟩
        cases hname.symm.trans hother
        rw [typeIn?_symbol _ rfl] at hown
        rw [SymbolTable.typeOfName?, hlookup, Option.bind_some, SymbolTable.typeOf?]
        cases hvar : after.symbols.get? id with
        | none =>
            rw [hvar] at hown
            cases hown
        | some var => rwa [hvar] at hown

theorem performs_store {place target : Expr} {ty : Ty} (hplace : place.IsPlace .store)
    (htarget : Pass.Reaches (inferExpr setting place) before target middle)
    (hstored : Stored middle target ty after) :
    Performs before (storeActs place)
      [{ act := .visit [place], ty := none, scope := middle },
        { act := .store place, ty := some ty, scope := after }] after :=
  .cons (follows_visitOne htarget) rfl (.one (follows_store hplace htarget hstored))

theorem performs_trailStores {places elements : List Expr} {stmts : List Stmt}
    {trail : List Entry} (hplaces : ∀ place ∈ places, place.IsPlace .store)
    (hruns : (trailStores setting span places elements).Runs before stmts trail after) :
    Performs before ((places.take elements.length).flatMap storeActs) trail after := by
  induction places generalizing elements stmts before trail with
  | nil =>
      simp only [trailStores, Trailing.runs_pure] at hruns
      obtain ⟨-, rfl, rfl⟩ := hruns
      rw [List.take_nil]
      exact .nil after
  | cons place places ih =>
      cases elements with
      | nil =>
          simp only [trailStores, Trailing.runs_pure] at hruns
          obtain ⟨-, rfl, rfl⟩ := hruns
          exact .nil after
      | cons element elements =>
          obtain ⟨hplace, hplaces⟩ := List.forall_mem_cons.mp hplaces
          simp only [trailStores, Trailing.runs_bind, Trailing.runs_visit, Trailing.runs_mark,
            Trailing.runs_pure] at hruns
          obtain ⟨target, _, first, _, ⟨htarget, rfl⟩, ⟨stmt, _, second, _, ⟨hstmt, rfl⟩,
            ⟨stmts, trail, _, _, hrest, ⟨-, rfl, rfl⟩, rfl⟩, rfl⟩, rfl⟩ := hruns
          obtain ⟨ty, hty, hstored⟩ := stored_typeStore hstmt
          have hstore := performs_store hplace htarget hstored
          have hrest := ih hplaces hrest
          rw [List.append_nil, hty]
          exact hstore.append hrest

theorem performs_trailUnpack {places : List Expr} {value : Expr} {stmts : List Stmt}
    {trail : List Entry} (hplaces : ∀ place ∈ places, place.IsPlace .store)
    (hvalue : Sized value)
    (hruns : (trailUnpack setting span places value).Runs before stmts trail after) :
    Performs before (unpackActs places) trail after := by
  simp only [trailUnpack, Trailing.runs_bind, Trailing.runs_mark, reaches_apply] at hruns
  obtain ⟨size, _, _, _, ⟨⟨hsize, rfl⟩, rfl⟩, hruns, rfl⟩ := hruns
  split at hruns
  · exact absurd (Trailing.runs_quiet.mp hruns).1 not_reaches_refuse
  next hlength =>
    simp only [Trailing.runs_bind, Trailing.runs_quiet, reaches_apply] at hruns
    obtain ⟨elements, _, start, trail, ⟨⟨helements, rfl⟩, rfl⟩, hstores, rfl⟩ := hruns
    obtain rfl : size = places.length := Decidable.not_not.mp hlength
    have hstores := performs_trailStores hplaces hstores
    have hsplit : Entry.Follows start
        { act := .split places, ty := value.typeIn? start.symbols, scope := start } := .split
    refine ⟨.cons hsplit hstores.path, ?_, fun hfull => ?_⟩
    · refine List.Sublist.cons_cons _ (hstores.sublist.trans ?_)
      exact (List.take_sublist _ _).flatMap storeActs
    · obtain ⟨hfirst, hfull⟩ := List.forall_mem_cons.mp hfull
      have henough : places.length ≤ elements.length := by
        rcases le_length_unpackedElements hvalue hsize helements with
          henough | ⟨ty, items, hty, hitems, hshort⟩
        · exact henough
        · simp [Entry.isShort, hty, hitems, hshort] at hfirst
      refine congrArg (List.cons _) ((hstores.complete hfull).trans ?_)
      rw [List.take_of_length_le henough]

theorem performs_trailAssign {targets : List Expr} {value : Expr} {stmts : List Stmt}
    {trail : List Entry} (htargets : ∀ place ∈ Stmt.unpackedTargets targets, place.IsPlace .store)
    (hvalue : Sized value)
    (hruns : (trailAssign setting span targets value).Runs before stmts trail after) :
    Performs before (assignActs targets) trail after := by
  have hone {target : Expr} (htarget : ∀ place ∈ [target], place.IsPlace .store)
      (hruns : (trailStores setting span [target] [value]).Runs before stmts trail after) :
      Performs before (storeActs target) trail after := by
    simpa using performs_trailStores htarget hruns
  rcases targets with _ | ⟨target, _ | ⟨other, targets⟩⟩
  · exact performs_trailUnpack htargets hvalue hruns
  · cases target with
    | tuple note elts access => exact performs_trailUnpack htargets hvalue hruns
    | list note elts access => exact performs_trailUnpack htargets hvalue hruns
    | _ => exact hone htargets hruns
  · simp only [trailAssign] at hruns
    simp only [Stmt.unpackedTargets] at htargets
    simpa only [assignActs] using performs_trailUnpack htargets hvalue hruns

/-! ### Results -/

theorem setsResult_inferReturn {value : Option Expr} {stmt : Stmt}
    (hreach : Pass.Reaches (inferReturn span value) before stmt after) :
    ∃ ty, after = before.setType resultSlot ty := by
  cases returnOutcome_of_reaches hreach with
  | nothing | value => exact ⟨_, rfl⟩

theorem setsResult_settleResult {declared : Option Ty} {ret : Ty}
    (hreach : Pass.Reaches (settleResult declared span) before ret after) :
    ∃ ty, after = before.setType resultSlot ty :=
  ⟨ret, (settled_of_settleResult hreach).1⟩

theorem follows_result (hafter : ∃ ty, after = before.setType resultSlot ty) :
    Entry.Follows before { act := .result, ty := none, scope := after } := by
  obtain ⟨ty, rfl⟩ := hafter
  exact .result

/-! ### Statements and bodies -/

theorem follows_inferTest {test result : Expr}
    (hreach : Pass.Reaches (inferTest setting test) before result after) :
    Entry.Follows before { act := .visit [test], ty := none, scope := after } := by
  simp only [inferTest, Pass.reaches_bind, reaches_apply] at hreach
  obtain ⟨_, _, htest, -, rfl⟩ := hreach
  exact follows_visitOne htest

mutual

theorem performs_trailStmt {stmt : Stmt} {results : List Stmt} {trail : List Entry}
    {before after : Scope} (hsource : ∀ inner ∈ stmt.nested, inner.IsSource)
    (hruns : (trailStmt setting stmt).Runs before results trail after) :
    Performs before (stmtActs stmt) trail after := by
  cases stmt with
  | assign span targets value =>
      have hself := List.forall_mem_singleton.mp hsource
      simp only [trailStmt, Trailing.runs_bind, Trailing.runs_visit] at hruns
      obtain ⟨value', _, middle, rest, ⟨hvalue, rfl⟩, hassign, rfl⟩ := hruns
      exact .cons (follows_visitOne hvalue) rfl
        (performs_trailAssign hself.places (sized_inferExpr hvalue) hassign)
  | augAssign span target op value =>
      have hself := List.forall_mem_singleton.mp hsource
      simp only [trailStmt, Trailing.runs_bind, Trailing.runs_visit] at hruns
      obtain ⟨value', _, middle, rest, ⟨hvalue, rfl⟩, hstore, rfl⟩ := hruns
      refine .cons (follows_visitOne hvalue) rfl ?_
      simpa using performs_trailStores (List.forall_mem_singleton.mpr hself.1) hstore
  | forIn span place source body orelse index =>
      obtain ⟨hself, hbodies⟩ := List.forall_mem_cons.mp hsource
      simp only [trailStmt] at hruns
      split at hruns
      · exact absurd (Trailing.runs_quiet.mp hruns).1 not_reaches_refuse
      next horelse =>
        split at hruns
        · exact absurd (Trailing.runs_quiet.mp hruns).1 not_reaches_refuse
        · simp only [Trailing.runs_bind, Trailing.runs_visit, Trailing.runs_quiet,
            Trailing.runs_mark, Trailing.runs_pure, reaches_apply] at hruns
          obtain ⟨iter, _, first, _, ⟨hiter, rfl⟩, ⟨element, _, _, _, ⟨⟨-, rfl⟩, rfl⟩, ⟨target, _,
            second, _, ⟨htarget, rfl⟩, ⟨_, _, third, _, ⟨hbind, rfl⟩, ⟨_, trail, _, _, hbody,
            ⟨-, rfl, rfl⟩, rfl⟩, rfl⟩, rfl⟩, rfl⟩, rfl⟩ := hruns
          obtain rfl : orelse = [] := by simpa using horelse
          have hbody := performs_trailBody (List.forall_mem_append.mp hbodies).1 hbody
          have hstore := performs_store hself.1 htarget (stored_bindElement hbind)
          rw [List.append_nil, stmtActs, bodyActs, List.append_nil]
          exact .cons (follows_visitOne hiter) rfl (hstore.append hbody)
  | whileLoop span test body orelse =>
      obtain ⟨-, hbodies⟩ := List.forall_mem_cons.mp hsource
      simp only [trailStmt] at hruns
      split at hruns
      · exact absurd (Trailing.runs_quiet.mp hruns).1 not_reaches_refuse
      next horelse =>
        simp only [Trailing.runs_bind, Trailing.runs_visit, Trailing.runs_pure] at hruns
        obtain ⟨test', _, middle, _, ⟨htest, rfl⟩, ⟨_, trail, _, _, hbody, ⟨-, rfl, rfl⟩, rfl⟩,
          rfl⟩ := hruns
        obtain rfl : orelse = [] := by simpa using horelse
        have hbody := performs_trailBody (List.forall_mem_append.mp hbodies).1 hbody
        rw [List.append_nil, stmtActs, bodyActs, List.append_nil]
        exact .cons (follows_inferTest htest) rfl hbody
  | branch span test body orelse =>
      obtain ⟨-, hbodies⟩ := List.forall_mem_cons.mp hsource
      obtain ⟨hbodySource, horelseSource⟩ := List.forall_mem_append.mp hbodies
      simp only [trailStmt, Trailing.runs_bind, Trailing.runs_visit, Trailing.runs_pure] at hruns
      obtain ⟨test', _, middle, _, ⟨htest, rfl⟩, ⟨_, trail, _, _, hbody, ⟨_, rest, _, _, horelse,
        ⟨-, rfl, rfl⟩, rfl⟩, rfl⟩, rfl⟩ := hruns
      have hbody := performs_trailBody hbodySource hbody
      have horelse := performs_trailBody horelseSource horelse
      rw [List.append_nil]
      exact .cons (follows_inferTest htest) rfl (hbody.append horelse)
  | ret span value =>
      simp only [trailStmt, Trailing.runs_bind, Trailing.runs_visit, Trailing.runs_mark,
        Trailing.runs_pure] at hruns
      obtain ⟨value', _, middle, _, ⟨hvalue, rfl⟩, ⟨_, _, _, _, ⟨hreturn, rfl⟩, ⟨-, rfl, rfl⟩, rfl⟩,
        rfl⟩ := hruns
      exact .cons (follows_visit (inferAll_of_part hvalue)) rfl
        (.one (follows_result (setsResult_inferReturn hreturn)))
  | expr span value =>
      simp only [trailStmt, Trailing.runs_bind, Trailing.runs_visit, Trailing.runs_pure] at hruns
      obtain ⟨value', _, middle, _, ⟨hvalue, rfl⟩, ⟨-, rfl, rfl⟩, rfl⟩ := hruns
      exact .one (follows_visitOne hvalue)
  | print span values dest newline =>
      simp only [trailStmt, Trailing.runs_bind, Trailing.runs_visit, Trailing.runs_pure] at hruns
      obtain ⟨values', _, middle, _, ⟨hvalues, rfl⟩, ⟨_, _, _, _, ⟨hdest, rfl⟩, ⟨-, rfl, rfl⟩, rfl⟩,
        rfl⟩ := hruns
      obtain ⟨visited, hvisited⟩ := inferAll_of_printed hvalues
      exact .cons (follows_visit hvisited) rfl (.one (follows_visit (inferAll_of_part hdest)))
  | global =>
      simp only [trailStmt] at hruns
      exact absurd (Trailing.runs_quiet.mp hruns).1 not_reaches_refuse
  | _ =>
      simp only [trailStmt, Trailing.runs_pure] at hruns
      obtain ⟨-, rfl, rfl⟩ := hruns
      exact .nil after
termination_by structural stmt

/-- Inference does for a body what its statements say, one after the other. -/
theorem performs_trailBody {body results : List Stmt} {trail : List Entry} {before after : Scope}
    (hsource : ∀ inner ∈ Stmt.nestedBody body, inner.IsSource)
    (hruns : (trailBody setting body).Runs before results trail after) :
    Performs before (bodyActs body) trail after := by
  cases body with
  | nil =>
      simp only [trailBody, Trailing.runs_pure] at hruns
      obtain ⟨-, rfl, rfl⟩ := hruns
      exact .nil after
  | cons stmt body =>
      obtain ⟨hstmt, hbody⟩ := List.forall_mem_append.mp hsource
      simp only [trailBody, Trailing.runs_bind, Trailing.runs_pure] at hruns
      obtain ⟨_, first, middle, _, hfirst, ⟨_, rest, _, _, hrest, ⟨-, rfl, rfl⟩, rfl⟩, rfl⟩ := hruns
      rw [List.append_nil]
      exact (performs_trailStmt hstmt hfirst).append (performs_trailBody hbody hrest)
termination_by structural body

end

theorem performs_trailResult {func : FunctionDef} {declared : Option Ty}
    {result : List Stmt × Ty} {trail : List Entry} (hsource : func.IsSource)
    (hruns : (trailResult setting func declared).Runs before result trail after) :
    Performs before (functionActs func) trail after := by
  simp only [trailResult, Trailing.runs_bind, Trailing.runs_mark, Trailing.runs_pure] at hruns
  obtain ⟨_, first, middle, _, hbody, ⟨_, _, _, _, ⟨hsettle, rfl⟩, ⟨-, rfl, rfl⟩, rfl⟩,
    rfl⟩ := hruns
  exact (performs_trailBody hsource.statements hbody).append
    (.one (follows_result (setsResult_settleResult hsettle)))

end Following

/-! ## Bindings along a path -/

section Bindings

variable {before after : Scope} {entry : Entry} {trail : List Entry} {name : String}
  {id : SymbolId}

theorem Entry.Follows.keepsTypes (hfollows : entry.Follows before) :
    before.symbols.KeepsTypes entry.scope.symbols := by
  intro id ty hid hty
  cases hfollows with
  | visit hextends => exact hextends.typeOf? hty
  | split => exact hty
  | take _ _ huntyped => exact (grows_untyped huntyped).typed hid hty
  | keep => exact hty
  | result => exact (SymbolTable.typeOf?_setType_of_ne _ hid).trans hty

/-- Along a path, bindings keep their types. -/
theorem Path.keepsTypes (hpath : Path before trail after) :
    (before.symbols :: (trail.map fun entry => entry.scope.symbols) ++ [after.symbols]).Pairwise
      SymbolTable.KeepsTypes := by
  induction hpath with
  | nil scope => simp [SymbolTable.KeepsTypes]
  | cons hstep _ ih =>
      refine List.pairwise_cons.mpr ⟨fun table htable => ?_, ih⟩
      rcases List.mem_cons.mp htable with rfl | htable
      · exact hstep.keepsTypes
      · exact hstep.keepsTypes.trans ((List.pairwise_cons.mp ih).1 table htable)

/-- The name means a local, which this is. -/
structure IsLocal (scope : Scope) (name : String) (id : SymbolId) : Prop where
  lookup : scope.symbols.lookup name = some id
  isLocal : ∃ var, scope.symbols.get? id = some var ∧ var.isLocal
  named : id ≠ resultSlot

namespace IsLocal

theorem setType (hlocal : IsLocal before name id) (other : SymbolId) (ty : Ty) :
    IsLocal (before.setType other ty) name id := by
  obtain ⟨hlookup, ⟨var, hvar, hisLocal⟩, hnamed⟩ := hlocal
  refine ⟨(SymbolTable.lookup_setType _ _ _ name).trans hlookup, ?_, hnamed⟩
  simp only [Scope.setType, SymbolTable.get?_setType]
  split
  next hid =>
    subst hid
    exact ⟨{ var with ty := some ty }, by rw [hvar]; rfl, hisLocal⟩
  next => exact ⟨var, hvar, hisLocal⟩

/-- Two names mean two bindings. -/
theorem name_eq {other : String} (hlocal : IsLocal before name id)
    (hother : before.symbols.lookup other = some id) : other = name := by
  obtain ⟨var, hvar, hname⟩ := SymbolTable.lookup_some hlocal.lookup
  obtain ⟨found, hfound, hfoundName⟩ := SymbolTable.lookup_some hother
  cases hvar.symm.trans hfound
  exact Option.some.inj (hfoundName.symm.trans hname)

theorem follows (hlocal : IsLocal before name id) (hfollows : entry.Follows before) :
    IsLocal entry.scope name id := by
  cases hfollows with
  | visit hextends =>
      obtain ⟨hlookup, ⟨var, hvar, hisLocal⟩, hnamed⟩ := hlocal
      exact ⟨hextends.lookup hlookup, ⟨var, hextends.get? hvar, hisLocal⟩, hnamed⟩
  | split => exact hlocal
  | take => exact hlocal.setType _ _
  | keep => exact hlocal
  | result => exact hlocal.setType _ _

/-- What is stored in a local gives it its type, unless it has one. -/
theorem typeOf?_of_stores (hlocal : IsLocal before name id) (hfollows : entry.Follows before)
    (hstores : entry.act.stores name) :
    ∃ ty, entry.scope.symbols.typeOf? id = some ty ∧
      (before.symbols.typeOf? id).or entry.ty = some ty := by
  obtain ⟨var, hvar, -⟩ := hlocal.isLocal
  cases hfollows with
  | take hname hlookup huntyped =>
      have hplace := of_decide_eq_true hstores
      cases hname.symm.trans hplace
      cases hlocal.lookup.symm.trans hlookup
      rw [hvar, Option.any_some, Option.isNone_iff_eq_none] at huntyped
      refine ⟨_, SymbolTable.typeOf?_setType_self hvar _, ?_⟩
      rw [SymbolTable.typeOf?, hvar, Option.bind_some, huntyped, Option.none_or]
  | keep htyped =>
      obtain ⟨ty, hty⟩ := htyped name (of_decide_eq_true hstores)
      rw [SymbolTable.typeOfName?, hlocal.lookup, Option.bind_some] at hty
      exact ⟨ty, hty, by rw [hty, Option.some_or]⟩
  | _ => cases hstores

theorem typeOf?_of_not_stores (hlocal : IsLocal before name id) (hfollows : entry.Follows before)
    (hstores : entry.act.stores name = false) :
    entry.scope.symbols.typeOf? id = before.symbols.typeOf? id := by
  obtain ⟨var, hvar, -⟩ := hlocal.isLocal
  cases hfollows with
  | visit hextends => rw [SymbolTable.typeOf?, SymbolTable.typeOf?, hextends.get? hvar, hvar]
  | split => rfl
  | take hname hlookup _ =>
      refine SymbolTable.typeOf?_setType_of_ne _ fun hid => ?_
      subst hid
      obtain rfl := hlocal.name_eq hlookup
      exact of_decide_eq_false hstores hname
  | keep => rfl
  | result => exact SymbolTable.typeOf?_setType_of_ne _ hlocal.named

/-- Along a path, a local that has no type takes that of the first thing stored in it. -/
theorem typeOf?_path (hlocal : IsLocal before name id) (hpath : Path before trail after) :
    IsLocal after name id ∧ after.symbols.typeOf? id =
      (before.symbols.typeOf? id).or
        ((trail.find? fun entry => entry.act.stores name).bind Entry.ty) := by
  induction hpath with
  | nil => exact ⟨hlocal, (Option.or_none).symm⟩
  | cons hstep _ ih =>
      obtain ⟨hafter, hty⟩ := ih (hlocal.follows hstep)
      refine ⟨hafter, hty.trans ?_⟩
      rw [List.find?_cons]
      split
      next hstores =>
        obtain ⟨ty, hnow, hfirst⟩ := hlocal.typeOf?_of_stores hstep hstores
        rw [hnow, Option.some_or, Option.bind_some, hfirst]
      next hstores => rw [hlocal.typeOf?_of_not_stores hstep (by simpa using hstores)]

/-- Along a path, a local that has no type is not read before something is stored in it. -/
theorem stored_before_read (hlocal : IsLocal before name id)
    (huntyped : before.symbols.typeOf? id = none) (hpath : Path before trail after)
    {earlier later : List Act} {act : Act} (hacts : trail.map Entry.act = earlier ++ act :: later)
    (hreads : act.Reads name) : ∃ other ∈ earlier, other.stores name := by
  obtain ⟨first, rest, rfl, rfl, hrest⟩ := List.map_eq_append_iff.mp hacts
  obtain ⟨entry, rest, rfl, rfl, -⟩ := List.map_eq_cons_iff.mp hrest
  obtain ⟨middle, hfirst, hrest⟩ := hpath.split
  obtain ⟨note, hnode⟩ := hreads
  cases hrest with
  | cons hstep _ =>
      obtain ⟨hmiddle, hty⟩ := hlocal.typeOf?_path hfirst
      rw [huntyped, Option.none_or] at hty
      obtain ⟨var, hvar, hisLocal⟩ := hmiddle.isLocal
      cases hstep with
      | visit _ hreadable =>
          have htyped := hreadable note name id var hnode hmiddle.lookup hvar hisLocal
          obtain ⟨ty, hvarTy⟩ := Option.isSome_iff_exists.mp htyped
          rw [SymbolTable.typeOf?, hvar, Option.bind_some, hvarTy] at hty
          obtain ⟨entry, hfind, -⟩ := Option.bind_eq_some_iff.mp hty.symm
          refine ⟨entry.act, List.mem_map_of_mem (List.mem_of_find?_eq_some hfind), ?_⟩
          exact List.find?_some (p := fun entry : Entry => entry.act.stores name) hfind
      | _ => cases hnode

end IsLocal

end Bindings

/-! ## The scope at the start -/

/-- The bindings of a scope at the start: that of the result, the parameters, the other locals, and
that of `None`. -/
theorem Scope.vars_ofFunction (func : FunctionDef) (args : List Ty) :
    ∃ parameters nothing, (Scope.ofFunction func args).symbols.vars =
        Scope.initial.symbols.vars ++ (parameters ++
          func.localNames.map (fun name => Variable.localNamed name none) ++ [nothing]) ∧
      (∀ var ∈ parameters, ∃ arg ∈ func.args, var.name = some arg) ∧
      nothing.name = some "None" := by
  refine ⟨_, _, Scope.vars_foldl_declare _ _, ?_, rfl⟩
  exact List.forall_mem_map.mpr fun ⟨arg, ty⟩ harg => ⟨arg, (List.of_mem_zip harg).1, rfl⟩

/-- A local that is no parameter has a binding at the start. -/
theorem Scope.localNamed_mem_ofFunction {func : FunctionDef} {args : List Ty} {name : String}
    (hname : name ∈ func.localNames) :
    Variable.localNamed name none ∈ (Scope.ofFunction func args).symbols.vars := by
  obtain ⟨parameters, nothing, hvars, -⟩ := Scope.vars_ofFunction func args
  rw [hvars]
  simp only [List.mem_append]
  exact .inr (.inl (.inr (List.mem_map_of_mem hname)))

/-- No other binding at the start has the name of such a local. -/
theorem Scope.eq_localNamed_of_mem_ofFunction {func : FunctionDef} {args : List Ty} {name : String}
    {var : Variable} (hnone : "None" ∉ func.localNames) (hname : name ∈ func.localNames)
    (hvar : var ∈ (Scope.ofFunction func args).symbols.vars) (hvarName : var.name = some name) :
    var = Variable.localNamed name none := by
  obtain ⟨parameters, nothing, hvars, hparameters, hnothing⟩ := Scope.vars_ofFunction func args
  rw [hvars] at hvar
  rcases List.mem_append.mp hvar with hslot | hvar
  · obtain rfl : var = ({} : Variable) := List.mem_singleton.mp hslot
    cases hvarName
  · rcases List.mem_append.mp hvar with hvar | hvar
    · rcases List.mem_append.mp hvar with hvar | hvar
      · obtain ⟨arg, harg, hargName⟩ := hparameters var hvar
        obtain rfl : arg = name := Option.some.inj (hargName.symm.trans hvarName)
        exact absurd harg (of_mem_firstOccurrences hname).2
      · obtain ⟨other, -, rfl⟩ := List.mem_map.mp hvar
        rw [Option.some.inj hvarName]
    · rw [List.mem_singleton.mp hvar] at hvarName
      obtain rfl : "None" = name := Option.some.inj (hnothing.symm.trans hvarName)
      exact absurd hname hnone

/-- At the start, the locals of a function that are no parameters have no type. -/
theorem isLocal_ofFunction {func : FunctionDef} {args : List Ty} {name : String}
    (hnone : "None" ∉ func.localNames) (hname : name ∈ func.localNames) :
    ∃ id, IsLocal (Scope.ofFunction func args) name id ∧
      (Scope.ofFunction func args).symbols.typeOf? id = none := by
  have hfound : (SymbolTable.lookupFrom name 0 (Scope.ofFunction func args).symbols.vars).isSome :=
    SymbolTable.lookupFrom_isSome (Scope.localNamed_mem_ofFunction hname) rfl
  obtain ⟨index, hindex⟩ := Option.isSome_iff_exists.mp hfound
  have hlookup : (Scope.ofFunction func args).symbols.lookup name = some ⟨index⟩ := by
    rw [SymbolTable.lookup, hindex, Option.map_some]
  obtain ⟨var, hvar, hvarName⟩ := SymbolTable.lookup_some hlookup
  obtain rfl :=
    Scope.eq_localNamed_of_mem_ofFunction hnone hname (List.mem_of_getElem? hvar) hvarName
  refine ⟨_, ⟨hlookup, ⟨_, hvar, rfl⟩, ?_⟩, ?_⟩
  · exact (Scope.anonymous_ofFunction func args).lookup_ne hlookup
  · rw [SymbolTable.typeOf?, hvar]
    rfl

/-! ## Every name of the source is visited -/

section Coverage

variable {node : Expr}

theorem covered_storeActs {places : List Expr} (hnode : node ∈ Expr.nodesAll places) :
    ∃ act ∈ places.flatMap storeActs, node ∈ act.nodes := by
  obtain ⟨place, hplace, hnode⟩ := Expr.mem_nodesAll.mp hnode
  refine ⟨.visit [place], List.mem_flatMap.mpr ⟨place, hplace, List.mem_cons_self⟩, ?_⟩
  exact Expr.mem_nodesAll.mpr ⟨place, List.mem_cons_self, hnode⟩

/-- The targets of an assignment are visited one by one, a single display apart. -/
theorem covered_assignActs {targets : List Expr} (hname : node.asName.isSome)
    (hnode : node ∈ Expr.nodesAll targets) : ∃ act ∈ assignActs targets, node ∈ act.nodes := by
  have hunpacked {places : List Expr} (hnode : node ∈ Expr.nodesAll places) :
      ∃ act ∈ unpackActs places, node ∈ act.nodes := by
    obtain ⟨act, hact, hnode⟩ := covered_storeActs hnode
    exact ⟨act, List.mem_cons_of_mem _ hact, hnode⟩
  have hdisplay {display : Expr} (hother : display.asName = none)
      (hnode : node ∈ Expr.nodesAll [display]) : node ∈ Expr.nodesAll display.children := by
    rw [Expr.nodesAll, Expr.nodesAll, List.append_nil, Expr.nodes_eq] at hnode
    rcases List.mem_cons.mp hnode with rfl | hnode
    · rw [hother] at hname
      cases hname
    · exact hnode
  unfold assignActs
  split
  · exact hunpacked (hdisplay rfl hnode)
  · exact hunpacked (hdisplay rfl hnode)
  next target _ _ =>
    obtain ⟨act, hact, hnode⟩ := covered_storeActs hnode
    exact ⟨act, by simpa using hact, hnode⟩
  · exact hunpacked hnode

theorem covered_own {stmt : Stmt} (hsource : stmt.IsSource) (hname : node.asName.isSome)
    (hnode : node ∈ stmt.nodes) : ∃ act ∈ stmtActs stmt, node ∈ act.nodes := by
  have hsplit (first second : List Expr) (hnode : node ∈ Expr.nodesAll (first ++ second)) :
      node ∈ Expr.nodesAll first ∨ node ∈ Expr.nodesAll second := by
    rwa [Expr.nodesAll_append, List.mem_append] at hnode
  cases stmt with
  | assign span targets value =>
      rcases hsplit _ _ hnode with hnode | hnode
      · obtain ⟨act, hact, hnode⟩ := covered_assignActs hname hnode
        exact ⟨act, List.mem_cons_of_mem _ hact, hnode⟩
      · exact ⟨_, List.mem_cons_self, hnode⟩
  | augAssign span target op value =>
      rcases hsplit [target] _ hnode with hnode | hnode
      · exact ⟨.visit [target], by simp [stmtActs, storeActs], hnode⟩
      · refine ⟨_, List.mem_cons_self, ?_⟩
        simp only [Act.nodes, Expr.nodesAll, List.append_nil, Expr.nodes, List.mem_cons,
          List.mem_append] at hnode ⊢
        exact .inr (.inr hnode)
  | forIn span target iter body orelse index =>
      obtain rfl : index = none := hsource.2.2
      rcases hsplit [target] _ hnode with hnode | hnode
      · exact ⟨.visit [target], by simp [stmtActs, storeActs], hnode⟩
      · exact ⟨.visit [iter], by simp [stmtActs], hnode⟩
  | whileLoop | branch | expr => exact ⟨_, List.mem_cons_self, hnode⟩
  | ret => exact ⟨_, List.mem_cons_self, hnode⟩
  | print span values dest newline =>
      rcases hsplit _ _ hnode with hnode | hnode
      · exact ⟨.visit dest.toList, by simp [stmtActs], hnode⟩
      · exact ⟨_, List.mem_cons_self, hnode⟩
  | _ => cases hnode

mutual

theorem covered_nested {stmt inner : Stmt} (hsource : ∀ inner ∈ stmt.nested, inner.IsSource)
    (hname : node.asName.isSome) (hinner : inner ∈ stmt.nested) (hnode : node ∈ inner.nodes) :
    ∃ act ∈ stmtActs stmt, node ∈ act.nodes := by
  cases stmt with
  | forIn _ _ _ body orelse | whileLoop _ _ body orelse | branch _ _ body orelse =>
      obtain ⟨hself, hbodies⟩ := List.forall_mem_cons.mp hsource
      obtain ⟨hbody, horelse⟩ := List.forall_mem_append.mp hbodies
      rcases List.mem_cons.mp hinner with rfl | hinner
      · exact covered_own hself hname hnode
      · rcases List.mem_append.mp hinner with hinner | hinner
        · obtain ⟨act, hact, hnode⟩ := covered_nestedBody hbody hname hinner hnode
          exact ⟨act, by simp [stmtActs, hact], hnode⟩
        · obtain ⟨act, hact, hnode⟩ := covered_nestedBody horelse hname hinner hnode
          exact ⟨act, by simp [stmtActs, hact], hnode⟩
  | _ =>
      obtain rfl := List.mem_singleton.mp hinner
      exact covered_own (List.forall_mem_singleton.mp hsource) hname hnode
termination_by structural stmt

theorem covered_nestedBody {body : List Stmt} {inner : Stmt}
    (hsource : ∀ inner ∈ Stmt.nestedBody body, inner.IsSource) (hname : node.asName.isSome)
    (hinner : inner ∈ Stmt.nestedBody body) (hnode : node ∈ inner.nodes) :
    ∃ act ∈ bodyActs body, node ∈ act.nodes := by
  cases body with
  | nil => cases hinner
  | cons stmt body =>
      obtain ⟨hstmt, hbody⟩ := List.forall_mem_append.mp hsource
      rcases List.mem_append.mp hinner with hinner | hinner
      · obtain ⟨act, hact, hnode⟩ := covered_nested hstmt hname hinner hnode
        exact ⟨act, List.mem_append_left _ hact, hnode⟩
      · obtain ⟨act, hact, hnode⟩ := covered_nestedBody hbody hname hinner hnode
        exact ⟨act, List.mem_append_right _ hact, hnode⟩
termination_by structural body

end

/-- Every name of the source is visited by an act. -/
theorem exists_act_of_mem_nodes {func : FunctionDef} (hsource : func.IsSource) {stmt : Stmt}
    (hstmt : stmt ∈ func.statements) (hnode : node ∈ stmt.nodes) (hname : node.asName.isSome) :
    ∃ act ∈ functionActs func, node ∈ act.nodes := by
  obtain ⟨act, hact, hnode⟩ := covered_nestedBody hsource.statements hname hstmt hnode
  exact ⟨act, List.mem_append_left _ hact, hnode⟩

end Coverage

end Inference

namespace FunctionDef

open Inference

/-- The type of a local is settled by the first thing that is stored in it, and the local is not
read before. A trail lists what inference does, in the order of the source; it is complete unless a
value is unpacked whose type records fewer constants than its size. Along the trail every binding
that has a type keeps it, that of the result apart. In the end a local that is no parameter has the
type of what was first stored in the name itself, and before the name is read something is stored in
it. So all nodes of one symbol come to have the same type. -/
theorem typed_by_first_store {setting : Setting} {func : FunctionDef} {signature : Signature}
    {inferred : Inferred} (hsource : func.IsSource) (hnone : "None" ∉ func.localNames)
    (hinfer : Pass.Succeeds (inferFunction setting func signature) inferred) :
    (∃ trail, Pass.Succeeds (trailFunction setting func signature) (inferred, trail)) ∧
    (∀ stmt ∈ func.statements, ∀ node ∈ stmt.nodes, node.asName.isSome →
      ∃ act ∈ functionActs func, node ∈ act.nodes) ∧
    (∀ trail, Pass.Succeeds (trailFunction setting func signature) (inferred, trail) →
      (trail.map Entry.act).Sublist (functionActs func) ∧
      ((∀ entry ∈ trail, entry.isShort = false) → trail.map Entry.act = functionActs func) ∧
      ((Scope.ofFunction func signature.args).symbols ::
        (trail.map fun entry => entry.scope.symbols) ++ [inferred.symbols]).Pairwise
          SymbolTable.KeepsTypes ∧
      ∀ name ∈ func.localNames,
        inferred.symbols.typeOfName? name =
          (trail.find? fun entry => entry.act.stores name).bind Entry.ty ∧
        ∀ earlier act later, trail.map Entry.act = earlier ++ act :: later → act.Reads name →
          ∃ other ∈ earlier, other.stores name) ∧
    ∀ typed, Pass.Succeeds (inferred.func.typed inferred.symbols) typed →
      ∀ stmt ∈ typed.statements, ∀ node ∈ stmt.nodes, node.asName.isSome →
        ∀ id, node.binding = some (.symbol id) → node.ty = inferred.symbols.typeOf? id := by
  refine ⟨succeeds_inferFunction_iff_trail.mp hinfer,
    fun stmt hstmt node hnode => exists_act_of_mem_nodes hsource hstmt hnode,
    fun trail htrail => ?_, fun typed htyped stmt hstmt node hnode _ id hid => ?_⟩
  · obtain ⟨-, body, ret, after, hruns, rfl⟩ := succeeds_trailFunction_iff.mp htrail
    obtain ⟨hpath, hsublist, hcomplete⟩ := performs_trailResult hsource hruns
    refine ⟨hsublist, hcomplete, hpath.keepsTypes, fun name hname => ?_⟩
    obtain ⟨id, hlocal, huntyped⟩ := isLocal_ofFunction hnone hname
    obtain ⟨hafter, hty⟩ := hlocal.typeOf?_path hpath
    rw [huntyped, Option.none_or] at hty
    refine ⟨?_, fun earlier act later => hlocal.stored_before_read huntyped hpath⟩
    rw [SymbolTable.typeOfName?, hafter.lookup, Option.bind_some, hty]
  · have hfixed := (fixed_typed hsource hinfer (done_of_isSource hsource hinfer) htyped).1
    obtain ⟨ty, var, hty, hvar, hvarTy⟩ := ((hfixed stmt hstmt).nodes node hnode).annotated
    have hbound : node.boundVar? inferred.symbols = inferred.symbols.get? id := by
      rw [Expr.boundVar?, hid]
    rw [hty, SymbolTable.typeOf?, ← hbound, hvar, Option.bind_some, hvarTy]

end FunctionDef

/-- `for i in range(n): a, b = 1, 2.5; a = b; print a`, then `return i`: the later store in `a` is a
floating-point number. -/
def narrowing : FunctionDef :=
  open Builder in
  function "narrowing" ["n"]
    [forIn (store "i") (call (load "range") [load "n"])
      [assign (tupleStore [store "a", store "b"]) (tuple [int 1, float ⟨0x4004000000000000⟩]),
        assign (store "a") (load "b"),
        print [load "a"]],
      ret (some (load "i"))]

theorem typed_by_first_store_narrowing : narrowing.IsSource ∧ "None" ∉ narrowing.localNames ∧
    ∃ inferred trail,
      Pass.Succeeds (Inference.inferFunction builtinsOnly narrowing { args := [.int64] }) inferred ∧
      Pass.Succeeds (Inference.trailFunction builtinsOnly narrowing { args := [.int64] })
        (inferred, trail) ∧
      trail.map Inference.Entry.act = Inference.functionActs narrowing ∧
      (narrowing.localNames.map inferred.symbols.typeOfName? =
        [some .int64, some .int64, some .float64]) ∧
      ∀ name ∈ narrowing.localNames,
        inferred.symbols.typeOfName? name =
          (trail.find? fun entry => entry.act.stores name).bind Inference.Entry.ty ∧
        ∀ earlier act later, trail.map Inference.Entry.act = earlier ++ act :: later →
          act.Reads name → ∃ other ∈ earlier, other.stores name := by
  have hsource : narrowing.IsSource := by decide +kernel
  have hnone : "None" ∉ narrowing.localNames := by decide +kernel
  obtain ⟨⟨inferred, trail⟩, htrail, htest⟩ : ∃ tracked,
      Pass.Succeeds (Inference.trailFunction builtinsOnly narrowing { args := [.int64] }) tracked ∧
      (tracked.2.all (fun entry => !entry.isShort) &&
        decide (narrowing.localNames.map tracked.1.symbols.typeOfName? =
          [some .int64, some .int64, some .float64])) = true :=
    Pass.exists_succeeds (fun _ _ => .host) (by decide +kernel)
  simp only [Bool.and_eq_true, List.all_eq_true, Bool.not_eq_true', decide_eq_true_eq] at htest
  obtain ⟨hfull, htypes⟩ := htest
  have hinfer := Inference.succeeds_inferFunction_iff_trail.mpr ⟨trail, htrail⟩
  obtain ⟨-, -, hall, -⟩ := FunctionDef.typed_by_first_store hsource hnone hinfer
  obtain ⟨-, hcomplete, -, hlocals⟩ := hall trail htrail
  exact ⟨hsource, hnone, inferred, trail, hinfer, htrail, hcomplete hfull, htypes, hlocals⟩

end KernelFront
