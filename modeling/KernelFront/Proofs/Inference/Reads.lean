import KernelFront.Proofs.Inference.Extension
import KernelFront.Proofs.Inference.Unpacking
import KernelFront.Proofs.Source

/-! # What visits of expressions tell

An expression other than a name is visited by visiting its parts from left to right. So nothing that
is visited reads a local without a type. What a visit makes of a place or of a display can be read
off its form: a place that is no name has a type of its own, and a display is as long as its type
says.
-/

namespace KernelFront

namespace Inference

variable {setting : Setting} {span : Span} {before middle after : Scope}

/-! ## Parts -/

theorem reaches_inferAll_append {first second results : List Expr} :
    Pass.Reaches (inferAll setting (first ++ second)) before results after ↔
      ∃ heads middle tails, Pass.Reaches (inferAll setting first) before heads middle ∧
        Pass.Reaches (inferAll setting second) middle tails after ∧ results = heads ++ tails := by
  induction first generalizing before results after with
  | nil =>
      simp only [List.nil_append, inferAll, Pass.reaches_pure]
      constructor
      · exact fun hsecond => ⟨[], before, results, ⟨rfl, rfl⟩, hsecond, rfl⟩
      · rintro ⟨_, _, tails, ⟨rfl, rfl⟩, hsecond, rfl⟩
        exact hsecond
  | cons e first ih =>
      simp only [List.cons_append, inferAll, Pass.reaches_bind, Pass.reaches_pure, ih]
      constructor
      · rintro ⟨head, start, hhead, _, _, ⟨heads, middle, tails, hheads, htails, rfl⟩, rfl, rfl⟩
        exact ⟨_, middle, tails, ⟨head, start, hhead, heads, _, hheads, rfl, rfl⟩, htails, rfl⟩
      · rintro ⟨_, _, tails, ⟨head, start, hhead, heads, _, hheads, rfl, rfl⟩, htails, rfl⟩
        exact ⟨head, start, hhead, _, _, ⟨heads, _, tails, hheads, htails, rfl⟩, rfl, rfl⟩

theorem reaches_inferAll_singleton {e : Expr} {results : List Expr} :
    Pass.Reaches (inferAll setting [e]) before results after ↔
      ∃ result, Pass.Reaches (inferExpr setting e) before result after ∧ results = [result] := by
  simp only [inferAll, Pass.reaches_bind, Pass.reaches_pure]
  constructor
  · rintro ⟨result, _, hresult, _, _, ⟨rfl, rfl⟩, rfl, rfl⟩
    exact ⟨result, hresult, rfl⟩
  · rintro ⟨result, hresult, rfl⟩
    exact ⟨result, _, hresult, _, _, ⟨rfl, rfl⟩, rfl, rfl⟩

/-- Keyword arguments are visited as their values are. -/
theorem inferAll_of_keywords {keywords results : List (String × Expr)}
    (hreach : Pass.Reaches (inferKeywords setting keywords) before results after) :
    Pass.Reaches (inferAll setting (keywords.map Prod.snd)) before (results.map Prod.snd)
      after := by
  induction keywords generalizing before results after with
  | nil =>
      simp only [inferKeywords, Pass.reaches_pure] at hreach
      obtain ⟨rfl, rfl⟩ := hreach
      simp [inferAll]
  | cons keyword keywords ih =>
      simp only [inferKeywords, Pass.reaches_bind, Pass.reaches_pure] at hreach
      obtain ⟨_, _, he, _, _, hrest, rfl, rfl⟩ := hreach
      simp only [List.map_cons, inferAll, Pass.reaches_bind, Pass.reaches_pure]
      exact ⟨_, _, he, _, _, ih hrest, rfl, rfl⟩

/-- An optional part is visited as a list of at most one part is. -/
theorem inferAll_of_part {part result : Option Expr}
    (hreach : Pass.Reaches (inferPart setting part) before result after) :
    Pass.Reaches (inferAll setting part.toList) before result.toList after := by
  cases part with
  | none =>
      simp only [inferPart, Pass.reaches_pure] at hreach
      obtain ⟨rfl, rfl⟩ := hreach
      simp [inferAll]
  | some e =>
      simp only [inferPart, Pass.reaches_bind, Pass.reaches_pure] at hreach
      obtain ⟨e', _, he, rfl, rfl⟩ := hreach
      exact reaches_inferAll_singleton.mpr ⟨e', he, rfl⟩

/-- What is printed is visited as a list of expressions is. -/
theorem inferAll_of_printed {values results : List Expr}
    (hreach : Pass.Reaches (inferPrinted setting values) before results after) :
    ∃ visited, Pass.Reaches (inferAll setting values) before visited after := by
  induction values generalizing before results after with
  | nil =>
      simp only [inferPrinted, Pass.reaches_pure] at hreach
      obtain ⟨rfl, rfl⟩ := hreach
      exact ⟨[], by simp [inferAll]⟩
  | cons value values ih =>
      simp only [inferPrinted, Pass.reaches_bind, reaches_apply, Pass.reaches_pure] at hreach
      obtain ⟨value', _, hvalue, _, _, ⟨-, rfl⟩, _, _, hrest, rfl, rfl⟩ := hreach
      obtain ⟨visited, hvisited⟩ := ih hrest
      refine ⟨value' :: visited, ?_⟩
      simp only [inferAll, Pass.reaches_bind, Pass.reaches_pure]
      exact ⟨_, _, hvalue, _, _, hvisited, rfl, rfl⟩

/-- An expression other than a name is visited by visiting its parts. -/
theorem inferAll_children {e result : Expr} (hname : e.asName = none)
    (hreach : Pass.Reaches (inferExpr setting e) before result after) :
    ∃ parts, Pass.Reaches (inferAll setting e.children) before parts after := by
  have hone {e result : Expr} {before after : Scope}
      (he : Pass.Reaches (inferExpr setting e) before result after) :
      Pass.Reaches (inferAll setting [e]) before [result] after :=
    reaches_inferAll_singleton.mpr ⟨result, he, rfl⟩
  have hboth {first second heads tails : List Expr} {before middle after : Scope}
      (hfirst : Pass.Reaches (inferAll setting first) before heads middle)
      (hsecond : Pass.Reaches (inferAll setting second) middle tails after) :
      Pass.Reaches (inferAll setting (first ++ second)) before (heads ++ tails) after :=
    reaches_inferAll_append.mpr ⟨heads, middle, tails, hfirst, hsecond, rfl⟩
  cases e with
  | name => cases hname
  | const | ellipsis =>
      simp only [inferExpr, Pass.reaches_pure] at hreach
      obtain ⟨-, rfl⟩ := hreach
      exact ⟨[], by simp [Expr.children, inferAll]⟩
  | binOp note left op right =>
      simp only [inferExpr, Pass.reaches_bind, reaches_apply] at hreach
      obtain ⟨_, _, hleft, _, _, hright, -, rfl⟩ := hreach
      exact ⟨_, hboth (hone hleft) (hone hright)⟩
  | boolOp note op values =>
      obtain ⟨_, hvalues, -⟩ := reaches_boolOp hreach
      exact ⟨_, hvalues⟩
  | unaryOp note op operand =>
      simp only [inferExpr, Pass.reaches_bind, reaches_apply] at hreach
      obtain ⟨_, _, hoperand, -, rfl⟩ := hreach
      exact ⟨_, hone hoperand⟩
  | compare note left ops comparators =>
      obtain ⟨_, _, _, _, hleft, hright, -⟩ := reaches_compare hreach
      exact ⟨_, hboth (hone hleft) hright⟩
  | call note func args keywords =>
      simp only [inferExpr, Pass.reaches_bind] at hreach
      obtain ⟨_, _, hfunc, _, _, hargs, _, _, hkeywords, hcall⟩ := hreach
      obtain ⟨rfl, -⟩ := visited_typeCall hcall
      exact ⟨_, hboth (hone hfunc) (hboth hargs (inferAll_of_keywords hkeywords))⟩
  | «attribute» note value attr access =>
      simp only [inferExpr, Pass.reaches_bind, reaches_apply] at hreach
      obtain ⟨_, _, hvalue, -, rfl⟩ := hreach
      exact ⟨_, hone hvalue⟩
  | subscript note value selector access =>
      simp only [inferExpr, Pass.reaches_bind, reaches_apply] at hreach
      obtain ⟨_, _, hvalue, _, _, hselector, -, rfl⟩ := hreach
      exact ⟨_, hboth (hone hvalue) (hone hselector)⟩
  | index note value =>
      simp only [inferExpr, Pass.reaches_bind, reaches_apply] at hreach
      obtain ⟨_, _, hvalue, -, rfl⟩ := hreach
      exact ⟨_, hone hvalue⟩
  | slice note lower upper step =>
      simp only [inferExpr, Pass.reaches_bind, Pass.reaches_pure] at hreach
      obtain ⟨_, _, hlower, _, _, hupper, _, _, hstep, -, rfl⟩ := hreach
      exact ⟨_, hboth (hboth (inferAll_of_part hlower) (inferAll_of_part hupper))
        (inferAll_of_part hstep)⟩
  | extSlice note dims =>
      simp only [inferExpr, Pass.reaches_bind, Pass.reaches_pure] at hreach
      obtain ⟨_, _, hdims, -, rfl⟩ := hreach
      exact ⟨_, hdims⟩
  | tuple note elts access =>
      simp only [inferExpr, Pass.reaches_bind, reaches_apply] at hreach
      obtain ⟨_, _, helts, -, rfl⟩ := hreach
      exact ⟨_, helts⟩
  | list note elts access =>
      simp only [inferExpr, Pass.reaches_bind, Pass.reaches_pure] at hreach
      obtain ⟨_, _, helts, -, rfl⟩ := hreach
      exact ⟨_, helts⟩
  | dict note keys values =>
      simp only [inferExpr, Pass.reaches_bind, reaches_apply] at hreach
      obtain ⟨_, _, hkeys, _, _, hvalues, -, rfl⟩ := hreach
      exact ⟨_, hboth hkeys hvalues⟩
  | _ => simp only [inferExpr, not_reaches_refuse] at hreach

/-! ## Reads -/

/-- No expression reads a local without a type. -/
def Readable (scope : Scope) (nodes : List Expr) : Prop :=
  ∀ note name id var, .name note name .load ∈ nodes → scope.symbols.lookup name = some id →
    scope.symbols.get? id = some var → var.isLocal → var.ty.isSome

namespace Readable

@[simp] theorem append {first second : List Expr} :
    Readable before (first ++ second) ↔ Readable before first ∧ Readable before second := by
  simp only [Readable, List.mem_append]
  constructor
  · intro hall
    exact ⟨fun note name id var hread => hall note name id var (.inl hread),
      fun note name id var hread => hall note name id var (.inr hread)⟩
  · rintro ⟨hfirst, hsecond⟩ note name id var (hread | hread)
    · exact hfirst note name id var hread
    · exact hsecond note name id var hread

/-- What can be read later and was there before could be read before. -/
theorem of_extends {nodes : List Expr} (hextends : before.Extends after)
    (hafter : Readable after nodes) : Readable before nodes :=
  fun note name id var hread hlookup hvar =>
    hafter note name id var hread (hextends.lookup hlookup) (hextends.get? hvar)

end Readable

theorem readable_visitName {note : Note} {name : String} {access : Access} {result : Expr}
    (hreach : Pass.Reaches (visitName setting name access span) before result after) :
    Readable before [.name note name access] := by
  rintro _ _ id var hread hlookup hvar hlocal
  obtain ⟨rfl, rfl, rfl⟩ := Expr.name.inj (List.mem_singleton.mp hread)
  simp only [visitName, pure_bind, Pass.reaches_bind, Pass.reaches_get] at hreach
  obtain ⟨_, start, ⟨rfl, rfl⟩, hreach⟩ := hreach
  simp only [hlookup] at hreach
  split at hreach
  · simp only [Pass.reaches_bind, not_reaches_refuse, false_and, exists_false] at hreach
  next hassigned =>
    cases hty : var.ty with
    | some ty => rfl
    | none => simp [hvar, hlocal, hty] at hassigned

theorem readable_inferAll_of {es results : List Expr}
    (heach : ∀ e ∈ es, ∀ {before result after},
      Pass.Reaches (inferExpr setting e) before result after → Readable before e.nodes)
    (hreach : Pass.Reaches (inferAll setting es) before results after) :
    Readable before (Expr.nodesAll es) := by
  induction es generalizing before results after with
  | nil => exact fun _ _ _ _ hread => absurd hread List.not_mem_nil
  | cons e es ih =>
      obtain ⟨he, hes⟩ := List.forall_mem_cons.mp heach
      simp only [inferAll, Pass.reaches_bind] at hreach
      obtain ⟨_, middle, hfirst, _, _, hrest, -⟩ := hreach
      have hextends := (followed_extends setting).inferExpr hfirst
      exact Readable.append.mpr ⟨he hfirst, (ih hes hrest).of_extends hextends⟩

/-- An expression that is visited reads no local without a type. -/
theorem readable_inferExpr {e result : Expr}
    (hreach : Pass.Reaches (inferExpr setting e) before result after) :
    Readable before e.nodes := by
  induction e using Expr.induct generalizing before result after with
  | hstep e ih =>
      cases hname : e.asName with
      | some name =>
          obtain ⟨note, access, rfl⟩ := Expr.eq_name_of_asName hname
          simp only [inferExpr] at hreach
          exact readable_visitName hreach
      | none =>
          obtain ⟨parts, hparts⟩ := inferAll_children hname hreach
          have hbelow := readable_inferAll_of (fun part hpart => ih part hpart) hparts
          rw [Expr.nodes_eq]
          intro note name id var hread
          rcases List.mem_cons.mp hread with rfl | hread
          · cases hname
          · exact hbelow note name id var hread

theorem readable_inferAll {es results : List Expr}
    (hreach : Pass.Reaches (inferAll setting es) before results after) :
    Readable before (Expr.nodesAll es) :=
  readable_inferAll_of (fun _ _ => readable_inferExpr) hreach

/-! ## Forms of results -/

/-- The expression has a type of its own and is no display. -/
def Single (e : Expr) : Prop := e.elements? = none ∧ ∃ var, e.binding = some (.value var)

section Rules

variable {table : SymbolTable} {value selector func result : Expr} {attr : String}
  {access : Access} {args : List Expr} {keywords : List (String × Expr)}

theorem single_typeBinOp {op : BinOp}
    (hrule : typeBinOp span value op selector table = .ok result) : Single result := by
  simp only [typeBinOp, bind_eq_ok, pure_eq_ok] at hrule
  obtain ⟨_, _, _, _, _, _, rfl⟩ := hrule
  exact ⟨rfl, _, rfl⟩

theorem single_typeUnaryOp {op : UnaryOp}
    (hrule : typeUnaryOp span op value table = .ok result) : Single result := by
  cases unaryOutcome_of_ok hrule with
  | negation | other => exact ⟨rfl, _, rfl⟩

theorem single_typeCompare {op : CmpOp}
    (hrule : typeCompare span value op selector table = .ok result) : Single result := by
  cases compareOutcome_of_ok hrule with
  | same | joined => exact ⟨rfl, _, rfl⟩

theorem single_typeIndex (hrule : typeIndex span value table = .ok result) : Single result := by
  obtain ⟨_, -, rfl⟩ := exists_typeIndex hrule
  exact ⟨rfl, _, rfl⟩

theorem single_typeAttribute
    (hrule : typeAttribute setting span value attr access table = .ok result) : Single result := by
  cases attributeOutcome_of_ok hrule with
  | known | metadata | dynamic => exact ⟨rfl, _, rfl⟩

theorem single_typeSubscript
    (hrule : typeSubscript span value selector access table = .ok result) : Single result := by
  cases subscriptOutcome_of_ok hrule with
  | host | hostAxes | selection | pointed | counted | object => exact ⟨rfl, _, rfl⟩

/-- A builtin may pass its argument on as it is. -/
theorem single_typeCall
    (hcall : Pass.Reaches (typeCall setting span func args keywords) before result after) :
    result ∈ args ∨ Single result := by
  have hconvert {arg : Expr} {table : SymbolTable} (ty : Ty) :
      arg.convert table ty ∈ [arg] ∨ Single (arg.convert table ty) := by
    unfold Expr.convert
    split
    · exact .inl (List.mem_singleton_self arg)
    · exact .inr ⟨rfl, _, rfl⟩
  obtain ⟨-, houtcome⟩ := callOutcome_of_reaches hcall
  cases houtcome with
  | builtin hbuiltin =>
      cases hbuiltin with
      | upTo | fromTo | stepping | length => exact .inr ⟨rfl, _, rfl⟩
      | int | float => exact hconvert _
  | direct hrule =>
      obtain ⟨-, rfl⟩ := exists_directCall hrule
      exact .inr ⟨rfl, _, rfl⟩
  | host => exact .inr ⟨rfl, _, rfl⟩

end Rules

/-- A visited place other than a name has a type of its own. -/
theorem value_of_place {place target : Expr} (hplace : place.IsPlace .store)
    (hname : place.asName = none)
    (hreach : Pass.Reaches (inferExpr setting place) before target after) :
    ∃ var, target.binding = some (.value var) := by
  cases hplace with
  | name => cases hname
  | «attribute» =>
      simp only [inferExpr, Pass.reaches_bind, reaches_apply] at hreach
      obtain ⟨_, _, _, hrule, -⟩ := hreach
      exact (single_typeAttribute hrule).2
  | subscript =>
      simp only [inferExpr, Pass.reaches_bind, reaches_apply] at hreach
      obtain ⟨_, _, _, _, _, _, hrule, -⟩ := hreach
      exact (single_typeSubscript hrule).2
  | tuple =>
      simp only [inferExpr, Pass.reaches_bind, reaches_apply, Except.ok.injEq] at hreach
      obtain ⟨_, _, _, rfl, -⟩ := hreach
      exact ⟨_, rfl⟩
  | list =>
      simp only [inferExpr, Pass.reaches_bind, Pass.reaches_pure] at hreach
      obtain ⟨_, _, _, rfl, -⟩ := hreach
      exact ⟨_, rfl⟩

/-- A display is unpacked into as many elements as it has. -/
def Sized (e : Expr) : Prop :=
  ∀ elts table size, e.elements? = some elts → unpackedSize e table = .ok size →
    size = elts.length

theorem Single.sized {e : Expr} (hsingle : Single e) : Sized e := by
  intro elts table size helts
  cases hsingle.1.symm.trans helts

theorem sized_inferAll {es results : List Expr}
    (heach : ∀ e ∈ es, ∀ {before result after},
      Pass.Reaches (inferExpr setting e) before result after → Sized result)
    (hreach : Pass.Reaches (inferAll setting es) before results after) :
    ∀ result ∈ results, Sized result := by
  induction es generalizing before results after with
  | nil =>
      simp only [inferAll, Pass.reaches_pure] at hreach
      obtain ⟨rfl, -⟩ := hreach
      exact List.forall_mem_nil _
  | cons e es ih =>
      obtain ⟨he, hes⟩ := List.forall_mem_cons.mp heach
      simp only [inferAll, Pass.reaches_bind, Pass.reaches_pure] at hreach
      obtain ⟨_, _, hfirst, _, _, hrest, rfl, -⟩ := hreach
      exact List.forall_mem_cons.mpr ⟨he hfirst, ih hes hrest⟩

/-- A display has the type of a tuple or a list of its own length. -/
theorem sized_typeTuple (elts : List Expr) (access : Access) (table : SymbolTable) :
    Sized (typeTuple span elts access table) := by
  intro found other size helts hsize
  cases helts
  obtain ⟨items, hitems⟩ := tupleVariable_ty table elts access
  have hty : (typeTuple span elts access table).typeIn? other =
      some (.tuple elts.length items) := hitems
  simp only [unpackedSize, bind_eq_ok, typeOf_eq_ok, hty, Option.some.injEq] at hsize
  obtain ⟨_, rfl, hsize⟩ := hsize
  exact (pure_eq_ok.mp hsize).symm

theorem sized_typeList (elts : List Expr) (access : Access) :
    Sized (typeList span elts access) := by
  intro found other size helts hsize
  cases helts
  have hty : (typeList span elts access).typeIn? other = some (.list elts.length none) := rfl
  simp only [unpackedSize, bind_eq_ok, typeOf_eq_ok, hty, Option.some.injEq] at hsize
  obtain ⟨_, rfl, hsize⟩ := hsize
  exact (pure_eq_ok.mp hsize).symm

/-- A visited display is as long as its type says. -/
theorem sized_inferExpr {e result : Expr}
    (hreach : Pass.Reaches (inferExpr setting e) before result after) : Sized result := by
  induction e using Expr.induct generalizing before result after with
  | hstep e ih =>
      cases e with
      | name =>
          simp only [inferExpr] at hreach
          obtain ⟨_, rfl, -⟩ := reaches_visitName hreach
          intro elts table size helts
          cases helts
      | const | ellipsis =>
          simp only [inferExpr, Pass.reaches_pure] at hreach
          obtain ⟨rfl, -⟩ := hreach
          exact Single.sized ⟨rfl, _, rfl⟩
      | binOp =>
          simp only [inferExpr, Pass.reaches_bind, reaches_apply] at hreach
          obtain ⟨_, _, _, _, _, _, hrule, -⟩ := hreach
          exact (single_typeBinOp hrule).sized
      | boolOp note op values =>
          obtain ⟨_, -, rfl⟩ := reaches_boolOp hreach
          exact Single.sized ⟨rfl, _, rfl⟩
      | unaryOp note op operand =>
          simp only [inferExpr, Pass.reaches_bind, reaches_apply] at hreach
          obtain ⟨_, _, _, hrule, -⟩ := hreach
          exact (single_typeUnaryOp hrule).sized
      | compare note left ops comparators =>
          obtain ⟨_, _, _, _, -, -, hrule⟩ := reaches_compare hreach
          exact (single_typeCompare hrule).sized
      | call note func args keywords =>
          simp only [inferExpr, Pass.reaches_bind] at hreach
          obtain ⟨_, _, _, _, _, hargs, _, _, _, hcall⟩ := hreach
          have hsized :=
            sized_inferAll (fun arg harg => ih arg (by simp [Expr.children, harg])) hargs
          exact (single_typeCall hcall).elim (hsized _) Single.sized
      | «attribute» =>
          simp only [inferExpr, Pass.reaches_bind, reaches_apply] at hreach
          obtain ⟨_, _, _, hrule, -⟩ := hreach
          exact (single_typeAttribute hrule).sized
      | subscript =>
          simp only [inferExpr, Pass.reaches_bind, reaches_apply] at hreach
          obtain ⟨_, _, _, _, _, _, hrule, -⟩ := hreach
          exact (single_typeSubscript hrule).sized
      | index =>
          simp only [inferExpr, Pass.reaches_bind, reaches_apply] at hreach
          obtain ⟨_, _, _, hrule, -⟩ := hreach
          exact (single_typeIndex hrule).sized
      | slice =>
          simp only [inferExpr, Pass.reaches_bind, Pass.reaches_pure] at hreach
          obtain ⟨_, _, _, _, _, _, _, _, _, rfl, -⟩ := hreach
          exact Single.sized ⟨rfl, _, rfl⟩
      | extSlice =>
          simp only [inferExpr, Pass.reaches_bind, Pass.reaches_pure] at hreach
          obtain ⟨_, _, _, rfl, -⟩ := hreach
          exact Single.sized ⟨rfl, _, rfl⟩
      | tuple =>
          simp only [inferExpr, Pass.reaches_bind, reaches_apply, Except.ok.injEq] at hreach
          obtain ⟨_, _, _, rfl, -⟩ := hreach
          exact sized_typeTuple _ _ _
      | list =>
          simp only [inferExpr, Pass.reaches_bind, Pass.reaches_pure] at hreach
          obtain ⟨_, _, _, rfl, -⟩ := hreach
          exact sized_typeList _ _
      | dict =>
          simp only [inferExpr, Pass.reaches_bind, reaches_apply, Except.ok.injEq] at hreach
          obtain ⟨_, _, _, _, _, _, rfl, -⟩ := hreach
          exact Single.sized ⟨rfl, _, rfl⟩
      | _ => simp only [inferExpr, not_reaches_refuse] at hreach

/-- A visited value is unpacked into as many elements as its type says, unless the type records
fewer constants than that. -/
theorem le_length_unpackedElements {value : Expr} {elements : List Expr} {table : SymbolTable}
    {size : Nat} (hsized : Sized value) (hsize : unpackedSize value table = .ok size)
    (hrule : unpackedElements setting value table = .ok elements) :
    size ≤ elements.length ∨ ∃ ty items, value.typeIn? table = some ty ∧
      ty.constantElements = some items ∧ items.length < size := by
  simp only [unpackedElements, bind_eq_ok, typeOf_eq_ok] at hrule
  obtain ⟨ty, hty, hrule⟩ := hrule
  split at hrule
  next elem count =>
    simp only [unpackedSize, bind_eq_ok, typeOf_eq_ok, hty, Option.some.injEq] at hsize
    obtain ⟨_, rfl, hsize⟩ := hsize
    obtain rfl := pure_eq_ok.mp hsize
    obtain rfl := pure_eq_ok.mp hrule
    exact .inl (by simp)
  next =>
    obtain rfl := pure_eq_ok.mp hrule
    exact .inl (Nat.le_of_eq (hsized _ table size rfl hsize))
  next =>
    obtain rfl := pure_eq_ok.mp hrule
    exact .inl (Nat.le_of_eq (hsized _ table size rfl hsize))
  next =>
    split at hrule
    next items hitems =>
      obtain rfl := pure_eq_ok.mp hrule
      rw [List.length_map]
      exact (Nat.lt_or_ge items.length size).elim
        (fun hshort => .inr ⟨ty, items, hty, hitems, hshort⟩) .inl
    next => cases hrule

end Inference

end KernelFront
