import KernelFront.Proofs.Inference.Extension
import KernelFront.Proofs.Inference.Journal
import KernelFront.Proofs.Inference.Unpacking

/-! # Constants recorded in the type of a name

A tuple of constants leaves them in its type, and a name takes the type of the first value stored in
it. When the name is unpacked, the constants of its type are written out in its place. Values that
are stored later are converted to that type and leave no trace in it. So the constants are those of
every value of the name exactly if no store converts what it stores.
-/

namespace KernelFront

namespace Inference

open Scope (resultSlot)

variable {setting : Setting} {span : Span} {before middle after : Scope}

/-! ## Names keep their types -/

/-- Inference went on to a later scope, where names mean what they meant. -/
structure Scope.Continues (before after : Scope) : Prop where
  grows : before.Grows after
  lookup : ∀ {name id}, before.symbols.lookup name = some id →
    after.symbols.lookup name = some id

theorem Scope.Continues.trans (hfirst : before.Continues middle)
    (hsecond : middle.Continues after) : before.Continues after :=
  ⟨hfirst.grows.trans hsecond.grows, fun hfound => hsecond.lookup (hfirst.lookup hfound)⟩

/-- Every step of inference goes on. -/
theorem followed_continues (setting : Setting) : FollowedOn setting Scope.Continues where
  refl scope := ⟨.refl scope, id⟩
  trans := .trans
  name hreach := ⟨(extends_visitName hreach).grows, (extends_visitName hreach).lookup⟩
  untyped huntyped := ⟨grows_untyped huntyped, fun hfound => by
    rw [Scope.setType, SymbolTable.lookup_setType, hfound]⟩
  result {scope ty} hwidens := by
    constructor
    · refine Scope.grows_setResult fun hvoid => ?_
      cases hwidens hvoid with
      | refl => rfl
      | object hne => exact absurd rfl hne
      | element hs => cases hs
    · intro name id hfound
      rw [Scope.setType, SymbolTable.lookup_setType, hfound]

theorem Scope.Continues.typeOfName? (hcontinues : before.Continues after)
    (hanonymous : before.Anonymous) {name : String} {ty : Ty}
    (hty : before.symbols.typeOfName? name = some ty) :
    after.symbols.typeOfName? name = some ty := by
  obtain ⟨id, hfound, hty⟩ := Option.bind_eq_some_iff.mp hty
  refine Option.bind_eq_some_iff.mpr ⟨id, hcontinues.lookup hfound, ?_⟩
  exact hcontinues.grows.typed (hanonymous.lookup_ne hfound) hty

/-! ## What a journal tells -/

/-- If the place is a name, the name has the type. -/
def NamesType (table : SymbolTable) (place : Expr) (ty : Ty) : Prop :=
  ∀ name, place.asName = some name → table.typeOfName? name = some ty

/-- What the bindings say about something that was done to a place. A stored value was converted to
the type of the place, and constants that were written out are those of the type. -/
def Event.Holds (table : SymbolTable) : Event → Prop
  | .store place value stmt => ∃ span target ty own, NamesType table place ty ∧
      settledType? table value = some own ∧ (ty.promote? own).isSome ∧
      stmt = .assign span [target] (value.convert table ty)
  | .unpack source elements => ∀ name, source.asName = some name →
      ∃ ty, table.typeOfName? name = some ty ∧
        ∀ constants, ty.constantElements = some constants →
          elements = constants.map fun item => literal item source.span
  | .iterate place element => ∃ ty, NamesType table place ty ∧ (ty.promote? element).isSome

theorem NamesType.mono (hcontinues : before.Continues after) (hanonymous : before.Anonymous)
    {place : Expr} {ty : Ty} (hnames : NamesType before.symbols place ty) :
    NamesType after.symbols place ty :=
  fun name hname => hcontinues.typeOfName? hanonymous (hnames name hname)

theorem Event.Holds.mono (hcontinues : before.Continues after) (hanonymous : before.Anonymous)
    {event : Event} (hholds : event.Holds before.symbols) : event.Holds after.symbols := by
  cases event with
  | store place value stmt =>
      obtain ⟨span, target, ty, own, hplace, hvalue, hpromote, rfl⟩ := hholds
      have hlater := hcontinues.grows.settledType? hvalue
      refine ⟨span, target, ty, own, hplace.mono hcontinues hanonymous, hlater, hpromote, ?_⟩
      rw [convert_of_settled hvalue hlater]
  | unpack source elements =>
      intro name hname
      obtain ⟨ty, hty, helements⟩ := hholds name hname
      exact ⟨ty, hcontinues.typeOfName? hanonymous hty, helements⟩
  | iterate place element =>
      obtain ⟨ty, hplace, hpromote⟩ := hholds
      exact ⟨ty, hplace.mono hcontinues hanonymous, hpromote⟩

/-- Inference went on, and what was written down holds. -/
structure Noted (before : Scope) (events : List Event) (after : Scope) : Prop where
  continues : before.Continues after
  holds : ∀ event ∈ events, event.Holds after.symbols

namespace Noted

variable {events first second : List Event} {event : Event}

theorem anonymous (hnoted : Noted before events after) (hanonymous : before.Anonymous) :
    after.Anonymous :=
  hnoted.continues.grows.anonymous hanonymous

/-- Nothing was written down. -/
theorem silent (hcontinues : before.Continues after) : Noted before [] after :=
  ⟨hcontinues, List.forall_mem_nil _⟩

theorem append (hanonymous : before.Anonymous) (hfirst : Noted before first middle)
    (hsecond : Noted middle second after) : Noted before (first ++ second) after := by
  refine ⟨hfirst.continues.trans hsecond.continues, List.forall_mem_append.mpr ⟨?_, hsecond.holds⟩⟩
  intro event hevent
  exact (hfirst.holds event hevent).mono hsecond.continues (hfirst.anonymous hanonymous)

/-- What is visited first writes nothing down. -/
theorem of_continues (hcontinues : before.Continues middle) (hnoted : Noted middle events after) :
    Noted before events after :=
  ⟨hcontinues.trans hnoted.continues, hnoted.holds⟩

/-- Something was done, and then what else was written down. -/
theorem cons (hanonymous : before.Anonymous) (hevent : event.Holds before.symbols)
    (hrest : Noted before events after) : Noted before (event :: events) after :=
  ⟨hrest.continues,
    List.forall_mem_cons.mpr ⟨hevent.mono hrest.continues hanonymous, hrest.holds⟩⟩

end Noted

/-- The type of a visited name is that of the name. -/
theorem namesType_of_settled {place target : Expr} {later : Scope} {ty : Ty}
    (hreach : Pass.Reaches (inferExpr setting place) before target after)
    (hcontinues : after.Continues later) (hty : settledType? later.symbols target = some ty) :
    NamesType later.symbols place ty := by
  intro name hname
  obtain ⟨note, access, rfl⟩ := Expr.eq_name_of_asName hname
  simp only [inferExpr] at hreach
  obtain ⟨id, rfl, hid, -⟩ := reaches_visitName hreach
  rw [settledType?_symbol _ rfl] at hty
  split at hty
  · cases hty
  · exact Option.bind_eq_some_iff.mpr ⟨id, hcontinues.lookup hid, hty⟩

/-- Elements that are stored in places, one by one. -/
theorem noted_journalStores {places elements : List Expr} {stmts : List Stmt} {events : List Event}
    (hanonymous : before.Anonymous) (helements : ∀ element ∈ elements, Placed element)
    (hreach : Pass.Reaches (journalStores setting span places elements) before (stmts, events)
      after) : Noted before events after := by
  have hfollowed := followed_continues setting
  induction places generalizing elements stmts events before with
  | nil =>
      simp only [journalStores, Pass.reaches_pure, Prod.mk.injEq] at hreach
      obtain ⟨⟨-, rfl⟩, rfl⟩ := hreach
      exact .silent (hfollowed.refl after)
  | cons place places ih =>
      cases elements with
      | nil =>
          simp only [journalStores, Pass.reaches_pure, Prod.mk.injEq] at hreach
          obtain ⟨⟨-, rfl⟩, rfl⟩ := hreach
          exact .silent (hfollowed.refl after)
      | cons element elements =>
          obtain ⟨helement, helements⟩ := List.forall_mem_cons.mp helements
          simp only [journalStores, Pass.reaches_bind, Pass.reaches_pure, Prod.mk.injEq] at hreach
          obtain ⟨target, first, htarget, stmt, second, hstmt, ⟨_, events⟩, _, hrest, ⟨-, rfl⟩,
            rfl⟩ := hreach
          have hplaced := ((visited_inferExpr htarget).holds hanonymous).placed
          obtain ⟨ty, own, hty, hown, hpromote, rfl, -⟩ := reaches_typeStore hplaced helement hstmt
          have hstored := hfollowed.typeStore hstmt
          have hcontinues := (hfollowed.inferExpr htarget).trans hstored
          have hlater := hcontinues.grows.anonymous hanonymous
          refine .of_continues hcontinues (.cons hlater ?_ (ih hlater helements hrest))
          exact ⟨span, target, ty, own, namesType_of_settled htarget hstored hty, hown, hpromote,
            rfl⟩

/-- Constants that are written out for a name are those of its type. -/
theorem holds_unpack {source value : Expr} {elements : List Expr} (hplaced : Placed value)
    (hvalue : Pass.Reaches (inferExpr setting source) before value after)
    (helements : unpackedElements setting value after.symbols = .ok elements) :
    Event.Holds after.symbols (.unpack source elements) := by
  intro name hname
  simp only [unpackedElements, bind_eq_ok, typeOf_eq_ok] at helements
  obtain ⟨ty, hty, helements⟩ := helements
  have hnames := namesType_of_settled hvalue ((followed_continues setting).refl after)
    ((settledType?_eq hplaced).trans hty)
  refine ⟨ty, hnames name hname, fun constants hconstants => ?_⟩
  obtain ⟨note, access, rfl⟩ := Expr.eq_name_of_asName hname
  simp only [inferExpr] at hvalue
  obtain ⟨id, rfl, -⟩ := reaches_visitName hvalue
  split at helements
  next => cases hconstants
  next heq => cases heq
  next heq => cases heq
  next =>
    rw [hconstants] at helements
    exact (pure_eq_ok.mp helements).symm

section Assignments

variable {targets : List Expr} {source value : Expr} {stmts : List Stmt} {events : List Event}

/-- A visited value that is unpacked. -/
theorem noted_journalUnpack (hanonymous : before.Anonymous)
    (hvalue : Pass.Reaches (inferExpr setting source) before value middle)
    (hreach : Pass.Reaches (journalUnpack setting span targets source value) middle (stmts, events)
      after) : Noted before events after := by
  have hvisited := visited_inferExpr hvalue
  have hlater := hvisited.grows.anonymous hanonymous
  have hsettled := hvisited.holds hanonymous
  refine .of_continues ((followed_continues setting).inferExpr hvalue) ?_
  simp only [journalUnpack, Pass.reaches_bind, reaches_apply] at hreach
  obtain ⟨_, _, ⟨-, rfl⟩, hreach⟩ := hreach
  split at hreach
  · exact absurd hreach not_reaches_refuse
  · simp only [Pass.reaches_bind, reaches_apply, Pass.reaches_pure, Prod.mk.injEq] at hreach
    obtain ⟨elements, _, ⟨helements, rfl⟩, ⟨_, events⟩, _, hstores, ⟨-, rfl⟩, rfl⟩ := hreach
    have hparts := settled_nodesAll.mp (settled_unpackedElements hsettled helements)
    exact .cons hlater (holds_unpack hsettled.placed hvalue helements)
      (noted_journalStores hlater (fun e he => (hparts e he).placed) hstores)

/-- A visited value that is stored in one place. -/
theorem noted_store {place : Expr} (hanonymous : before.Anonymous)
    (hvalue : Pass.Reaches (inferExpr setting source) before value middle)
    (hreach : Pass.Reaches (journalStores setting span [place] [value]) middle (stmts, events)
      after) : Noted before events after := by
  have hvisited := visited_inferExpr hvalue
  have hplaced := (hvisited.holds hanonymous).placed
  exact .of_continues ((followed_continues setting).inferExpr hvalue)
    (noted_journalStores (hvisited.grows.anonymous hanonymous) (by simpa using hplaced) hreach)

theorem noted_journalAssign (hanonymous : before.Anonymous)
    (hvalue : Pass.Reaches (inferExpr setting source) before value middle)
    (hreach : Pass.Reaches (journalAssign setting span targets source value) middle (stmts, events)
      after) : Noted before events after := by
  unfold journalAssign at hreach
  split at hreach
  · exact noted_journalUnpack hanonymous hvalue hreach
  · exact noted_journalUnpack hanonymous hvalue hreach
  · exact noted_store hanonymous hvalue hreach
  · exact noted_journalUnpack hanonymous hvalue hreach

end Assignments

/-- A loop target has a type that meets the elements, which it may have got from them. -/
theorem reaches_bindElement {target : Expr} {element : Ty} {result : Unit}
    (hplaced : Placed target)
    (hreach : Pass.Reaches (bindElement target element) before result after) :
    ∃ ty, settledType? after.symbols target = some ty ∧ (ty.promote? element).isSome := by
  cases bindOutcome_of_reaches hreach with
  | fresh hbinding huntyped =>
      obtain ⟨var, hvar⟩ := Option.isSome_iff_exists.mp (Option.isSome_of_any huntyped)
      exact ⟨element, settledType?_setType hplaced hbinding hvar element, by simp⟩
  | settled hown hmeets => exact ⟨_, (settledType?_eq hplaced).trans hown, hmeets⟩

mutual

theorem noted_journalStmt {stmt : Stmt} {results : List Stmt} {events : List Event}
    {before after : Scope} (hanonymous : before.Anonymous)
    (hreach : Pass.Reaches (journalStmt setting stmt) before (results, events) after) :
    Noted before events after := by
  have hfollowed := followed_continues setting
  have hother (hreach : Pass.Reaches (do
      let stmts ← inferStmt setting stmt
      pure (stmts, [])) before (results, events) after) : Noted before events after := by
    simp only [Pass.reaches_bind, Pass.reaches_pure, Prod.mk.injEq] at hreach
    obtain ⟨_, _, hstmts, ⟨-, rfl⟩, rfl⟩ := hreach
    exact .silent (hfollowed.inferStmt hstmts)
  cases stmt with
  | assign span targets source =>
      simp only [journalStmt, Pass.reaches_bind] at hreach
      obtain ⟨_, _, hvalue, hassign⟩ := hreach
      exact noted_journalAssign hanonymous hvalue hassign
  | augAssign span target op source =>
      simp only [journalStmt, Pass.reaches_bind] at hreach
      obtain ⟨_, _, hvalue, hstore⟩ := hreach
      exact noted_store hanonymous hvalue hstore
  | forIn span place iter body orelse index =>
      simp only [journalStmt] at hreach
      split at hreach
      · exact absurd hreach not_reaches_refuse
      · split at hreach
        · exact absurd hreach not_reaches_refuse
        · simp only [Pass.reaches_bind, reaches_apply, Pass.reaches_pure, Prod.mk.injEq] at hreach
          obtain ⟨_, first, hiter, element, _, ⟨-, rfl⟩, target, second, htarget, _, third, hbind,
            ⟨_, events⟩, _, hbody, ⟨-, rfl⟩, rfl⟩ := hreach
          have hbound := hfollowed.bindElement hbind
          have hvisited := visited_inferExpr htarget
          have hfirst := (hfollowed.inferExpr hiter).grows.anonymous hanonymous
          have hplaced := (hvisited.holds hfirst).placed
          obtain ⟨ty, hty, hpromote⟩ := reaches_bindElement hplaced hbind
          have hlater := hbound.grows.anonymous (hvisited.grows.anonymous hfirst)
          refine .of_continues ((hfollowed.inferExpr hiter).trans
            ((hfollowed.inferExpr htarget).trans hbound)) ?_
          refine .cons hlater ?_ (noted_journalBody hlater hbody)
          exact ⟨ty, namesType_of_settled htarget hbound hty, hpromote⟩
  | whileLoop span test body orelse =>
      simp only [journalStmt] at hreach
      split at hreach
      · exact absurd hreach not_reaches_refuse
      · simp only [Pass.reaches_bind, Pass.reaches_pure, Prod.mk.injEq] at hreach
        obtain ⟨_, middle, htest, ⟨_, events⟩, _, hbody, ⟨-, rfl⟩, rfl⟩ := hreach
        have htest := hfollowed.inferTest htest
        exact .of_continues htest (noted_journalBody (htest.grows.anonymous hanonymous) hbody)
  | branch span test body orelse =>
      simp only [journalStmt, Pass.reaches_bind, Pass.reaches_pure, Prod.mk.injEq] at hreach
      obtain ⟨_, first, htest, ⟨_, events⟩, second, hbody, ⟨_, others⟩, _, horelse, ⟨-, rfl⟩,
        rfl⟩ := hreach
      have htest := hfollowed.inferTest htest
      have hfirst := htest.grows.anonymous hanonymous
      have hbody := noted_journalBody hfirst hbody
      exact .of_continues htest
        (hbody.append hfirst (noted_journalBody (hbody.anonymous hfirst) horelse))
  | _ =>
      simp only [journalStmt] at hreach
      exact hother hreach
termination_by structural stmt

/-- What is written down while a body is bound holds. -/
theorem noted_journalBody {body results : List Stmt} {events : List Event} {before after : Scope}
    (hanonymous : before.Anonymous)
    (hreach : Pass.Reaches (journalBody setting body) before (results, events) after) :
    Noted before events after := by
  cases body with
  | nil =>
      simp only [journalBody, Pass.reaches_pure, Prod.mk.injEq] at hreach
      obtain ⟨⟨-, rfl⟩, rfl⟩ := hreach
      exact .silent ((followed_continues setting).refl after)
  | cons stmt body =>
      simp only [journalBody, Pass.reaches_bind, Pass.reaches_pure, Prod.mk.injEq] at hreach
      obtain ⟨⟨_, events⟩, middle, hstmt, ⟨_, others⟩, _, hrest, ⟨-, rfl⟩, rfl⟩ := hreach
      have hfirst := noted_journalStmt hanonymous hstmt
      exact hfirst.append hanonymous (noted_journalBody (hfirst.anonymous hanonymous) hrest)
termination_by structural body

end

/-- What is written down while a function is inferred holds in the end. -/
theorem holds_journalFunction {func : FunctionDef} {signature : Signature} {inferred : Inferred}
    {events : List Event}
    (hnoted : Pass.Succeeds (journalFunction setting func signature) (inferred, events)) :
    ∀ event ∈ events, event.Holds inferred.symbols := by
  unfold journalFunction at hnoted
  split at hnoted
  · exact absurd hnoted Pass.not_succeeds_throw
  · simp only [Pass.succeeds_bind] at hnoted
    obtain ⟨⟨⟨⟨body, _⟩, ret⟩, scope⟩, hrun, _, _, hinferred⟩ := hnoted
    obtain ⟨rfl, rfl⟩ := Prod.mk.inj (Pass.succeeds_pure.mp hinferred)
    change Pass.Reaches _ _ _ _ at hrun
    simp only [Pass.reaches_bind, Pass.reaches_pure, Prod.mk.injEq] at hrun
    obtain ⟨_, middle, hbody, _, _, hret, ⟨rfl, rfl⟩, rfl⟩ := hrun
    have hbody := noted_journalBody (Scope.anonymous_ofFunction func signature.args) hbody
    intro event hevent
    exact (hbody.holds event hevent).mono ((followed_continues setting).settleResult hret)
      (hbody.anonymous (Scope.anonymous_ofFunction func signature.args))

/-! ## Constants -/

/-- The type of a value records these constants. -/
def Records (table : SymbolTable) (value : Expr) (constants : List Constant) : Prop :=
  ∃ ty, value.typeIn? table = some ty ∧ ty.constantElements = some constants

end Inference

theorem Ty.ty_eq_of_constantElements {ty : Ty} {constants : List Constant}
    (hconstants : ty.constantElements = some constants) :
    (∃ size, ty = .tuple size (some constants)) ∨ ∃ size, ty = .list size (some constants) := by
  cases ty with
  | tuple size value => exact .inl ⟨size, congrArg _ hconstants⟩
  | list size value => exact .inr ⟨size, congrArg _ hconstants⟩
  | _ => cases hconstants

/-- Types that have a common type do not record the same constants unless they are equal. -/
theorem Ty.constantElements_eq_iff {ty own : Ty} {constants : List Constant}
    (hpromote : (ty.promote? own).isSome) (hconstants : ty.constantElements = some constants) :
    own.constantElements = some constants ↔ own = ty := by
  refine ⟨fun hown => ?_, fun heq => heq ▸ hconstants⟩
  rcases ty_eq_of_constantElements hconstants with ⟨size, rfl⟩ | ⟨size, rfl⟩ <;>
    rcases ty_eq_of_constantElements hown with ⟨own, rfl⟩ | ⟨own, rfl⟩
  -- A tuple and a list have no common type, and two of them have one only at the same size.
  all_goals simp only [promote?, promoteFlat, directed] at hpromote
  · by_cases hsize : size = own
    · rw [hsize]
    · simp [hsize, Ne.symm hsize] at hpromote
  · simp at hpromote
  · simp at hpromote
  · by_cases hsize : size = own
    · rw [hsize]
    · simp [hsize, Ne.symm hsize] at hpromote

theorem Expr.convert_eq_self_iff {table : SymbolTable} {e : Expr} {ty : Ty} :
    e.convert table ty = e ↔ e.typeIn? table = some ty := by
  unfold convert
  split
  next hty => exact iff_of_true rfl hty
  next hty =>
    refine iff_of_false (fun heq => ?_) hty
    have hsize := congrArg sizeOf heq
    simp only [coercion.sizeOf_spec] at hsize
    omega

namespace FunctionDef

open Inference

variable {setting : Setting} {func : FunctionDef} {signature : Signature} {inferred : Inferred}
  {events : List Event} {source : Expr} {elements : List Expr} {name : String}
  {constants : List Constant}

/-- When a name whose type records constants is unpacked, these constants are written out. They are
those of a value stored in the name, anywhere in the function, exactly if the value is stored
without a conversion, and those of the elements that a loop stores in it exactly if the name has
their type. -/
theorem unpacked_constants_iff
    (hnoted : Pass.Succeeds (journalFunction setting func signature) (inferred, events))
    (hunpack : .unpack source elements ∈ events) (hname : source.asName = some name)
    (hrecords : (inferred.symbols.typeOfName? name).bind Ty.constantElements = some constants) :
    (elements = constants.map fun item => literal item source.span) ∧
      (∀ place value stmt, .store place value stmt ∈ events → place.asName = some name →
        (Records inferred.symbols value constants ↔
          ∃ span target, stmt = .assign span [target] value)) ∧
      ∀ place element, .iterate place element ∈ events → place.asName = some name →
        (element.constantElements = some constants ↔
          inferred.symbols.typeOfName? name = some element) := by
  obtain ⟨ty, hty, hconstants⟩ := Option.bind_eq_some_iff.mp hrecords
  have hholds := holds_journalFunction hnoted
  refine ⟨?_, fun place value stmt hevent hplace => ?_, fun place element hevent hplace => ?_⟩
  · obtain ⟨found, hfound, helements⟩ := hholds _ hunpack name hname
    cases hty.symm.trans hfound
    exact helements constants hconstants
  · obtain ⟨span, target, found, own, hnames, hown, hpromote, rfl⟩ := hholds _ hevent
    cases hty.symm.trans (hnames name hplace)
    have hown := typeIn?_of_settled hown
    have hrecorded : Records inferred.symbols value constants ↔ own = ty := by
      rw [← Ty.constantElements_eq_iff hpromote hconstants]
      simp [Records, hown]
    rw [hrecorded, ← Option.some_inj, ← hown, ← Expr.convert_eq_self_iff]
    constructor
    · intro hsame
      exact ⟨span, target, by rw [hsame]⟩
    · rintro ⟨_, _, heq⟩
      exact (Stmt.assign.inj heq).2.2
  · obtain ⟨found, hnames, hpromote⟩ := hholds _ hevent
    cases hty.symm.trans (hnames name hplace)
    rw [Ty.constantElements_eq_iff hpromote hconstants, hty, Option.some_inj, eq_comm]

end FunctionDef

/-- A name holds one pair of constants and then another, and is unpacked. -/
def restaging : FunctionDef :=
  open Builder in
  function "restaging" []
    [assign (store "t") (tuple [int 1, int 2]),
      assign (store "t") (tuple [int 3, int 4]),
      assign (tupleStore [store "a", store "b"]) (load "t"),
      ret (some (load "b"))]

open Inference

/-- The elements that a name was unpacked into, each time. -/
def unpackings (name : String) (events : List Event) : List (List Expr) :=
  events.filterMap fun
    | .unpack source elements => if source.asName = some name then some elements else none
    | _ => none

/-- The values that were stored in a name. -/
def storedValues (name : String) (events : List Event) : List Expr :=
  events.filterMap fun
    | .store place value _ => if place.asName = some name then some value else none
    | _ => none

theorem mem_unpackings {name : String} {events : List Event} {elements : List Expr}
    (helements : elements ∈ unpackings name events) :
    ∃ source, .unpack source elements ∈ events ∧ source.asName = some name := by
  obtain ⟨event, hevent, helements⟩ := List.mem_filterMap.mp helements
  split at helements
  next source _ =>
    obtain ⟨hname, heq⟩ := Option.ite_none_right_eq_some.mp helements
    cases heq
    exact ⟨source, hevent, hname⟩
  next => cases helements

theorem mem_storedValues {name : String} {events : List Event} {value : Expr}
    (hvalue : value ∈ storedValues name events) :
    ∃ place stmt, .store place value stmt ∈ events ∧ place.asName = some name := by
  obtain ⟨event, hevent, hvalue⟩ := List.mem_filterMap.mp hvalue
  split at hvalue
  next place _ stmt =>
    obtain ⟨hname, heq⟩ := Option.ite_none_right_eq_some.mp hvalue
    cases heq
    exact ⟨place, stmt, hevent, hname⟩
  next => cases hvalue

theorem journal_restaging : ∃ inferred events,
    Pass.Succeeds (journalFunction builtinsOnly restaging { args := [] }) (inferred, events) ∧
      (inferred.symbols.typeOfName? "t").bind Ty.constantElements = some [.int 1, .int 2] ∧
      (unpackings "t" events).map (List.map (Expr.constantIn? inferred.symbols)) =
        [[some (.int 1), some (.int 2)]] ∧
      (storedValues "t" events).map (Expr.constantIn? inferred.symbols) =
        [some (.tuple [.int 1, .int 2]), some (.tuple [.int 3, .int 4])] := by
  obtain ⟨⟨inferred, events⟩, hnoted, htest⟩ : ∃ noted,
      Pass.Succeeds (journalFunction builtinsOnly restaging { args := [] }) noted ∧
      (decide ((noted.1.symbols.typeOfName? "t").bind Ty.constantElements =
          some [.int 1, .int 2]) &&
        (decide ((unpackings "t" noted.2).map (List.map (Expr.constantIn? noted.1.symbols)) =
          [[some (.int 1), some (.int 2)]]) &&
        decide ((storedValues "t" noted.2).map (Expr.constantIn? noted.1.symbols) =
          [some (.tuple [.int 1, .int 2]), some (.tuple [.int 3, .int 4])]))) = true :=
    Pass.exists_succeeds (fun _ _ => .host) (by decide +kernel)
  simp only [Bool.and_eq_true, decide_eq_true_eq] at htest
  exact ⟨inferred, events, hnoted, htest⟩

/-- The unpacking of `t` writes out one and two, though the pair of three and four that was stored
last does not have these constants. -/
theorem unpacked_constants_iff_restaging : ∃ inferred events source elements,
    Pass.Succeeds (journalFunction builtinsOnly restaging { args := [] }) (inferred, events) ∧
      .unpack source elements ∈ events ∧ source.asName = some "t" ∧
      (elements = [Constant.int 1, .int 2].map fun item => literal item source.span) ∧
      ∀ place value stmt, .store place value stmt ∈ events → place.asName = some "t" →
        (Records inferred.symbols value [.int 1, .int 2] ↔
          ∃ span target, stmt = .assign span [target] value) := by
  obtain ⟨inferred, events, hnoted, hrecords, hunpackings, -⟩ := journal_restaging
  obtain ⟨elements, helements⟩ : ∃ elements, elements ∈ unpackings "t" events := by
    have hlength := congrArg List.length hunpackings
    rw [List.length_map] at hlength
    exact List.exists_mem_of_length_eq_add_one hlength
  obtain ⟨source, hunpack, hname⟩ := mem_unpackings helements
  have hall := FunctionDef.unpacked_constants_iff hnoted hunpack hname hrecords
  exact ⟨inferred, events, source, elements, hnoted, hunpack, hname, hall.1, hall.2.1⟩

/-- The unpacking of a name is written out as constants that are not those of all values stored in
the name. -/
theorem restaging_not_recorded : ¬ ∀ inferred events,
    Pass.Succeeds (journalFunction builtinsOnly restaging { args := [] }) (inferred, events) →
      ∀ source elements constants, .unpack source elements ∈ events →
        source.asName = some "t" →
        elements.map (Expr.constantIn? inferred.symbols) = constants.map some →
        ∀ place value stmt, .store place value stmt ∈ events → place.asName = some "t" →
          value.constantIn? inferred.symbols = some (.tuple constants) := by
  intro hall
  obtain ⟨inferred, events, hnoted, -, hunpackings, hstored⟩ := journal_restaging
  obtain ⟨elements, helements, hconstants⟩ : ∃ elements ∈ unpackings "t" events,
      elements.map (Expr.constantIn? inferred.symbols) = [some (.int 1), some (.int 2)] := by
    rw [← List.mem_map, hunpackings]
    exact List.mem_singleton_self _
  obtain ⟨value, hvalue, hlast⟩ : ∃ value ∈ storedValues "t" events,
      value.constantIn? inferred.symbols = some (.tuple [.int 3, .int 4]) := by
    rw [← List.mem_map, hstored]
    exact List.mem_cons_of_mem _ List.mem_cons_self
  obtain ⟨source, hunpack, hname⟩ := mem_unpackings helements
  obtain ⟨place, stmt, hstore, hplace⟩ := mem_storedValues hvalue
  have hsame := hall inferred events hnoted source elements [.int 1, .int 2] hunpack hname
    hconstants place value stmt hstore hplace
  exact absurd (hlast.symm.trans hsame) (by decide)

end KernelFront
