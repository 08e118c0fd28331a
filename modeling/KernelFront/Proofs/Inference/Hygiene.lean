import KernelFront.Proofs.Inference.FirstStores
import KernelFront.Proofs.Inference.Made

/-! # Binding hygiene

The bindings of a function are those of its result, of its parameters, of its other locals and of
`None`, and then one for each free name, in the order in which inference visits these names first.
No name has two bindings. What inference makes of a name is bound to the binding of this name, and
the binding is that of a local exactly if the name is a parameter or is bound by a statement.
-/

namespace KernelFront

/-! ## Bindings apart from their types -/

/-- A binding without its type. -/
def Variable.erased (var : Variable) : Variable := { var with ty := none }

/-- The binding of a free name without its type. -/
def Variable.free (name : String) : Variable := { name := some name }

namespace SymbolTable

/-- The bindings of a table without their types. -/
def erased (table : SymbolTable) : List Variable := table.vars.map Variable.erased

/-- The names of the bindings of a table, in their order. -/
def boundNames (table : SymbolTable) : List String := table.vars.filterMap Variable.name

/-- The name of a binding. -/
def nameOf? (table : SymbolTable) (id : SymbolId) : Option String :=
  (table.get? id).bind Variable.name

variable {table : SymbolTable}

theorem boundNames_eq : table.boundNames = table.erased.filterMap Variable.name := by
  rw [boundNames, erased, List.filterMap_map]
  rfl

theorem nameOf?_eq (id : SymbolId) :
    table.nameOf? id = table.erased[id.index]?.bind Variable.name := by
  rw [nameOf?, get?, erased, List.getElem?_map]
  cases table.vars[id.index]? <;> rfl

theorem erased_insert (var : Variable) :
    (table.insert var).2.erased = table.erased ++ [var.erased] := by
  simp [insert, erased]

theorem erased_setType (id : SymbolId) (ty : Option Ty) :
    (table.setType id ty).erased = table.erased := by
  refine List.ext_getElem? fun index => ?_
  simp only [setType, erased, List.getElem?_map, List.getElem?_modify]
  split
  · cases table.vars[index]? <;> rfl
  · simp

theorem mem_boundNames_iff {name : String} :
    name ∈ table.boundNames ↔ (table.lookup name).isSome := by
  constructor
  · intro hname
    obtain ⟨var, hvar, hvarName⟩ := List.mem_filterMap.mp hname
    have hfound : (lookupFrom name 0 table.vars).isSome := lookupFrom_isSome hvar hvarName
    rwa [lookup, Option.isSome_map]
  · intro hfound
    obtain ⟨id, hid⟩ := Option.isSome_iff_exists.mp hfound
    obtain ⟨var, hvar, hvarName⟩ := lookup_some hid
    exact List.mem_filterMap.mpr ⟨var, List.mem_of_getElem? hvar, hvarName⟩

end SymbolTable

/-! ## First occurrences -/

theorem firstOccurrences_congr {seen other : List String} (names : List String)
    (hsame : ∀ name, name ∈ seen ↔ name ∈ other) :
    firstOccurrences seen names = firstOccurrences other names := by
  induction names generalizing seen other with
  | nil => rfl
  | cons name names ih =>
      have hmore (found : String) : found ∈ name :: seen ↔ found ∈ name :: other := by
        simp [hsame]
      simp only [firstOccurrences, hsame]
      rw [ih hsame, ih hmore]

theorem firstOccurrences_append (seen first second : List String) :
    firstOccurrences seen (first ++ second) =
      firstOccurrences seen first ++
        firstOccurrences (seen ++ firstOccurrences seen first) second := by
  induction first generalizing seen with
  | nil => simp [firstOccurrences]
  | cons name first ih =>
      simp only [List.cons_append, firstOccurrences]
      split
      · exact ih seen
      · rw [ih, List.cons_append]
        refine congrArg (name :: · ) (congrArg (firstOccurrences (name :: seen) first ++ ·) ?_)
        exact firstOccurrences_congr second fun other => by simp; tauto

namespace Inference

/-! ## Visits bind names -/

/-- The names among these expressions that are visited, in order. -/
def visitedNames (acts : List Act) : List String :=
  acts.flatMap fun act => act.nodes.filterMap Expr.asName

/-- Names were visited: each of them that had no binding got one, at its first visit, behind those
that were there. Apart from their types, the other bindings stay as they are. -/
structure Binds (before : Scope) (names : List String) (after : Scope) : Prop where
  erased : after.symbols.erased = before.symbols.erased ++
    (firstOccurrences before.symbols.boundNames names).map Variable.free
  slot : after.symbols.returnSlot = before.symbols.returnSlot

/-- A name is bound to the binding of this name. -/
def IsBoundTo (table : SymbolTable) (e : Expr) : Prop :=
  ∃ id, e.binding = some (.symbol id) ∧ table.nameOf? id = e.asName

variable {setting : Setting} {span : Span} {before middle after : Scope}

namespace Binds

theorem boundNames {names : List String} (hbinds : Binds before names after) :
    after.symbols.boundNames =
      before.symbols.boundNames ++ firstOccurrences before.symbols.boundNames names := by
  have hfree (names : List String) :
      (names.map Variable.free).filterMap Variable.name = names := by
    rw [List.filterMap_map]
    exact List.filterMap_some
  rw [SymbolTable.boundNames_eq, hbinds.erased, List.filterMap_append, hfree,
    ← SymbolTable.boundNames_eq]

theorem trans {first second : List String} (hfirst : Binds before first middle)
    (hsecond : Binds middle second after) : Binds before (first ++ second) after := by
  refine ⟨?_, hsecond.slot.trans hfirst.slot⟩
  rw [hsecond.erased, hfirst.erased, hfirst.boundNames, firstOccurrences_append, List.map_append,
    List.append_assoc]

theorem refl (scope : Scope) : Binds scope [] scope := ⟨(List.append_nil _).symm, rfl⟩

theorem setType (scope : Scope) (id : SymbolId) (ty : Ty) : Binds scope [] (scope.setType id ty) :=
  ⟨(SymbolTable.erased_setType _ _).trans (List.append_nil _).symm, rfl⟩

theorem nameOf? {names : List String} {id : SymbolId} {name : String}
    (hbinds : Binds before names after) (hname : before.symbols.nameOf? id = some name) :
    after.symbols.nameOf? id = some name := by
  rw [SymbolTable.nameOf?_eq] at hname ⊢
  obtain ⟨var, hvar, hname⟩ := Option.bind_eq_some_iff.mp hname
  rw [hbinds.erased, List.getElem?_append_left (List.getElem?_eq_some_iff.mp hvar).1, hvar]
  exact hname

/-- A name that is bound stays bound to the binding of this name. -/
theorem names {names : List String} {nodes : List Expr} (hbinds : Binds before names after)
    (hnodes : Names (IsBoundTo before.symbols) nodes) : Names (IsBoundTo after.symbols) nodes := by
  intro node hnode hname
  obtain ⟨id, hid, hbound⟩ := hnodes node hnode hname
  obtain ⟨name, hname⟩ := Option.isSome_iff_exists.mp hname
  exact ⟨id, hid, (hbinds.nameOf? (hbound.trans hname)).trans hname.symm⟩

end Binds

/-! ### Expressions -/

theorem binds_visitName {name : String} {access : Access} {result : Expr}
    (hreach : Pass.Reaches (visitName setting name access span) before result after) :
    Binds before [name] after := by
  simp only [visitName, pure_bind, Pass.reaches_bind, Pass.reaches_get] at hreach
  obtain ⟨_, start, ⟨rfl, rfl⟩, hreach⟩ := hreach
  split at hreach
  next id hid =>
    split at hreach
    · simp only [Pass.reaches_bind, not_reaches_refuse, false_and, exists_false] at hreach
    · obtain ⟨-, rfl⟩ := Pass.reaches_pure.mp hreach
      have hmem : name ∈ after.symbols.boundNames :=
        SymbolTable.mem_boundNames_iff.mpr (Option.isSome_of_mem hid)
      exact ⟨by simp [firstOccurrences, hmem], rfl⟩
  next hnew =>
    simp only [Pass.reaches_bind, Pass.reaches_pure] at hreach
    obtain ⟨id, _, hfree, -, rfl⟩ := hreach
    obtain ⟨ty, -, hafter⟩ := reaches_bindFree hfree
    have hmem : name ∉ start.symbols.boundNames := by
      rw [SymbolTable.mem_boundNames_iff, hnew]
      exact nofun
    refine ⟨?_, by rw [hafter]; rfl⟩
    rw [hafter, SymbolTable.erased_insert, firstOccurrences, if_neg hmem]
    rfl

theorem names_visitName {name : String} {access : Access} {result : Expr}
    (hreach : Pass.Reaches (visitName setting name access span) before result after) :
    Names (IsBoundTo after.symbols) result.nodes := by
  obtain ⟨id, rfl, hlookup, -⟩ := reaches_visitName hreach
  obtain ⟨var, hvar, hname⟩ := SymbolTable.lookup_some hlookup
  simp only [Expr.nodes, names_cons, names_nil, and_true]
  exact fun _ => ⟨id, rfl, Option.bind_eq_some_iff.mpr ⟨var, hvar, hname⟩⟩

/-- Expressions were visited: the names in them were, and what they became is bound. -/
structure Reads (before : Scope) (es results : List Expr) (after : Scope) : Prop where
  binds : Binds before ((Expr.nodesAll es).filterMap Expr.asName) after
  names : Names (IsBoundTo after.symbols) (Expr.nodesAll results)

theorem reads_inferAll_of {es results : List Expr}
    (heach : ∀ e ∈ es, ∀ {before after result},
      Pass.Reaches (inferExpr setting e) before result after → Reads before [e] [result] after)
    (hreach : Pass.Reaches (inferAll setting es) before results after) :
    Reads before es results after := by
  induction es generalizing before results with
  | nil =>
      simp only [inferAll, Pass.reaches_pure] at hreach
      obtain ⟨rfl, rfl⟩ := hreach
      exact ⟨.refl after, names_nil⟩
  | cons e es ih =>
      obtain ⟨hfirst, hrest⟩ := List.forall_mem_cons.mp heach
      simp only [inferAll, Pass.reaches_bind, Pass.reaches_pure] at hreach
      obtain ⟨result, middle, he, results, _, hes, rfl, rfl⟩ := hreach
      have he := hfirst he
      have hes := ih hrest hes
      refine ⟨?_, names_append.mpr ⟨?_, hes.names⟩⟩
      · have hbinds := he.binds.trans hes.binds
        rwa [← List.filterMap_append, ← Expr.nodesAll_append] at hbinds
      · exact hes.binds.names (names_nodesAll.mp he.names result List.mem_cons_self)

theorem reads_inferExpr {e result : Expr}
    (hreach : Pass.Reaches (inferExpr setting e) before result after) :
    Reads before [e] [result] after := by
  induction e using Expr.induct generalizing before result after with
  | hstep e ih =>
      cases hname : e.asName with
      | some name =>
          obtain ⟨note, access, rfl⟩ := Expr.eq_name_of_asName hname
          simp only [inferExpr] at hreach
          exact ⟨binds_visitName hreach, names_append.mpr ⟨names_visitName hreach, names_nil⟩⟩
      | none =>
          obtain ⟨parts, hparts, hnames⟩ := names_of_parts hname hreach
          have hparts := reads_inferAll_of (fun part hpart => ih part hpart) hparts
          refine ⟨?_, names_append.mpr ⟨hnames _ hparts.names, names_nil⟩⟩
          rw [Expr.nodesAll, Expr.nodesAll, List.append_nil, Expr.nodes_eq,
            List.filterMap_cons_none hname]
          exact hparts.binds

theorem reads_inferAll {es results : List Expr}
    (hreach : Pass.Reaches (inferAll setting es) before results after) :
    Reads before es results after :=
  reads_inferAll_of (fun _ _ => reads_inferExpr) hreach

theorem reads_inferPart {part result : Option Expr}
    (hreach : Pass.Reaches (inferPart setting part) before result after) :
    Reads before part.toList result.toList after :=
  reads_inferAll (inferAll_of_part hreach)

theorem reads_inferTest {test result : Expr}
    (hreach : Pass.Reaches (inferTest setting test) before result after) :
    Reads before [test] [result] after := by
  simp only [inferTest, Pass.reaches_bind, reaches_apply, Except.ok.injEq] at hreach
  obtain ⟨visited, _, htest, rfl, rfl⟩ := hreach
  obtain ⟨hbinds, hnames⟩ := reads_inferExpr htest
  exact ⟨hbinds, names_convertAll.mpr hnames⟩

theorem reads_inferPrinted {values results : List Expr}
    (hreach : Pass.Reaches (inferPrinted setting values) before results after) :
    Reads before values results after := by
  induction values generalizing before results with
  | nil =>
      simp only [inferPrinted, Pass.reaches_pure] at hreach
      obtain ⟨rfl, rfl⟩ := hreach
      exact ⟨.refl after, names_nil⟩
  | cons value values ih =>
      simp only [inferPrinted, Pass.reaches_bind, reaches_apply, Except.ok.injEq,
        Pass.reaches_pure] at hreach
      obtain ⟨visited, _, hvalue, _, _, ⟨rfl, rfl⟩, rest, _, hrest, rfl, rfl⟩ := hreach
      have hvalue := reads_inferExpr hvalue
      have hrest := ih hrest
      refine ⟨?_, names_append.mpr ⟨names_convert.mpr ?_, hrest.names⟩⟩
      · have hbinds := hvalue.binds.trans hrest.binds
        rwa [← List.filterMap_append, ← Expr.nodesAll_append] at hbinds
      · exact hrest.binds.names (names_nodesAll.mp hvalue.names visited List.mem_cons_self)

/-! ### Stores -/

theorem binds_stored {target : Expr} {ty : Ty} (hstored : Stored before target ty after) :
    Binds before [] after := by
  rcases hstored with ⟨id, -, -, rfl⟩ | ⟨rfl, -⟩
  · exact .setType before id ty
  · exact .refl after

theorem names_typeStore {good : Expr → Prop} {target value : Expr} {stmt : Stmt}
    (htarget : Names good target.nodes) (hvalue : Names good value.nodes)
    (hreach : Pass.Reaches (typeStore target value span) before stmt after) :
    Names good (Stmt.nodesBody [stmt]) :=
  throughout_typeStore (fun _ _ _ => Bool.noConfusion) htarget hvalue hreach

theorem names_unpackedElements {good : Expr → Prop} {value : Expr} {elements : List Expr}
    {table : SymbolTable} (hvalue : Names good value.nodes)
    (hrule : unpackedElements setting value table = .ok elements) :
    Names good (Expr.nodesAll elements) := by
  simp only [unpackedElements, bind_eq_ok, typeOf_eq_ok] at hrule
  obtain ⟨ty, -, hrule⟩ := hrule
  split at hrule
  next elem count =>
    obtain rfl := pure_eq_ok.mp hrule
    refine names_nodesAll.mpr (List.forall_mem_map.mpr fun index _ => ?_)
    simp [Expr.nodes, Expr.asName, indexConstant, hvalue]
  next =>
    obtain rfl := pure_eq_ok.mp hrule
    exact (names_below rfl).mp hvalue
  next =>
    obtain rfl := pure_eq_ok.mp hrule
    exact (names_below rfl).mp hvalue
  next =>
    split at hrule
    · obtain rfl := pure_eq_ok.mp hrule
      refine names_nodesAll.mpr (List.forall_mem_map.mpr fun item _ => ?_)
      exact names_constantOf _ _ _
    · cases hrule

/-! ### Statements -/

/-- Some acts were done: the names that they visit were visited, and the names in these expressions
are bound. -/
structure Resolves (before : Scope) (trail : List Entry) (nodes : List Expr) (after : Scope) :
    Prop where
  binds : Binds before (visitedNames (trail.map Entry.act)) after
  names : Names (IsBoundTo after.symbols) nodes

namespace Resolves

variable {first second : List Entry} {nodes rest : List Expr}

theorem append (hfirst : Resolves before first nodes middle)
    (hsecond : Resolves middle second rest after) :
    Resolves before (first ++ second) (nodes ++ rest) after := by
  refine ⟨?_, names_append.mpr ⟨hsecond.binds.names hfirst.names, hsecond.names⟩⟩
  rw [List.map_append, visitedNames, List.flatMap_append]
  exact hfirst.binds.trans hsecond.binds

theorem of_nodes {other : List Expr} (hresolves : Resolves before first nodes after)
    (hnodes : Names (IsBoundTo after.symbols) nodes → Names (IsBoundTo after.symbols) other) :
    Resolves before first other after :=
  ⟨hresolves.binds, hnodes hresolves.names⟩

theorem nil (scope : Scope) : Resolves scope [] [] scope := ⟨.refl scope, names_nil⟩

/-- An act that visits nothing. -/
theorem one {entry : Entry} (hact : entry.act.nodes = []) (hbinds : Binds before [] entry.scope)
    (hnodes : Names (IsBoundTo entry.scope.symbols) nodes) :
    Resolves before [entry] nodes entry.scope := by
  refine ⟨?_, hnodes⟩
  simpa [visitedNames, hact] using hbinds

end Resolves

theorem Reads.resolves {es results : List Expr} (hreads : Reads before es results after) :
    Resolves before [{ act := .visit es, ty := none, scope := after }] (Expr.nodesAll results)
      after := by
  refine ⟨?_, hreads.names⟩
  simpa [visitedNames, Act.nodes] using hreads.binds

/-- Expressions were visited that are taken up by the acts that follow. -/
theorem Reads.cons {es results : List Expr} {nodes : List Expr} {trail : List Entry}
    (hreads : Reads before es results middle) (hresolves : Resolves middle trail nodes after) :
    Resolves before ({ act := .visit es, ty := none, scope := middle } :: trail) nodes after :=
  ⟨(hreads.resolves.append hresolves).binds, hresolves.names⟩

theorem resolves_trailStores {places elements : List Expr} {stmts : List Stmt} {trail : List Entry}
    (helements : Names (IsBoundTo before.symbols) (Expr.nodesAll elements))
    (hruns : (trailStores setting span places elements).Runs before stmts trail after) :
    Resolves before trail (Stmt.nodesBody stmts) after := by
  induction places generalizing elements stmts before trail with
  | nil =>
      simp only [trailStores, Trailing.runs_pure] at hruns
      obtain ⟨rfl, rfl, rfl⟩ := hruns
      exact .nil after
  | cons place places ih =>
      cases elements with
      | nil =>
          simp only [trailStores, Trailing.runs_pure] at hruns
          obtain ⟨rfl, rfl, rfl⟩ := hruns
          exact .nil after
      | cons element elements =>
          simp only [trailStores, Trailing.runs_bind, Trailing.runs_visit, Trailing.runs_mark,
            Trailing.runs_pure] at hruns
          obtain ⟨target, _, first, _, ⟨htarget, rfl⟩, ⟨stmt, _, second, _, ⟨hstmt, rfl⟩,
            ⟨stmts, trail, _, _, hrest, ⟨rfl, rfl, rfl⟩, rfl⟩, rfl⟩, rfl⟩ := hruns
          have htarget := reads_inferExpr htarget
          obtain ⟨ty, -, hstored⟩ := stored_typeStore hstmt
          have hstored := binds_stored hstored
          obtain ⟨helement, helements⟩ := names_append.mp (htarget.binds.names helements)
          have hplace := names_nodesAll.mp htarget.names target List.mem_cons_self
          have hassign := hstored.names (names_typeStore hplace helement hstmt)
          have hrest := ih (hstored.names helements) hrest
          change Resolves _ _ (Stmt.nodesBody ([stmt] ++ stmts)) _
          rw [Stmt.nodesBody_append, List.append_nil, List.singleton_append]
          exact htarget.cons (.append (.one rfl hstored hassign) hrest)

theorem resolves_trailUnpack {places : List Expr} {value : Expr} {stmts : List Stmt}
    {trail : List Entry} (hvalue : Names (IsBoundTo before.symbols) value.nodes)
    (hruns : (trailUnpack setting span places value).Runs before stmts trail after) :
    Resolves before trail (Stmt.nodesBody stmts) after := by
  simp only [trailUnpack, Trailing.runs_bind, Trailing.runs_mark, reaches_apply] at hruns
  obtain ⟨size, _, _, _, ⟨⟨-, rfl⟩, rfl⟩, hruns, rfl⟩ := hruns
  split at hruns
  · exact absurd (Trailing.runs_quiet.mp hruns).1 not_reaches_refuse
  · simp only [Trailing.runs_bind, Trailing.runs_quiet, reaches_apply] at hruns
    obtain ⟨elements, _, start, trail, ⟨⟨helements, rfl⟩, rfl⟩, hstores, rfl⟩ := hruns
    have hstores := resolves_trailStores (names_unpackedElements hvalue helements) hstores
    exact .append (.one rfl (.refl start) names_nil) hstores

theorem resolves_trailAssign {targets : List Expr} {value : Expr} {stmts : List Stmt}
    {trail : List Entry} (hvalue : Names (IsBoundTo before.symbols) value.nodes)
    (hruns : (trailAssign setting span targets value).Runs before stmts trail after) :
    Resolves before trail (Stmt.nodesBody stmts) after := by
  unfold trailAssign at hruns
  split at hruns
  · exact resolves_trailUnpack hvalue hruns
  · exact resolves_trailUnpack hvalue hruns
  · exact resolves_trailStores (names_nodesAll.mpr (List.forall_mem_singleton.mpr hvalue)) hruns
  · exact resolves_trailUnpack hvalue hruns

/-! ### Results -/

theorem binds_result (hafter : ∃ ty, after = before.setType Scope.resultSlot ty) :
    Binds before [] after := by
  obtain ⟨ty, rfl⟩ := hafter
  exact .setType before _ ty

theorem names_inferReturn {good : Expr → Prop} {value : Option Expr} {stmt : Stmt}
    (hvalue : Names good (Expr.nodesAll value.toList))
    (hreach : Pass.Reaches (inferReturn span value) before stmt after) :
    Names good (Stmt.nodesBody [stmt]) :=
  throughout_inferReturn (fun _ _ _ => Bool.noConfusion) hvalue hreach

/-! ### Statements and bodies -/

mutual

theorem resolves_trailStmt {stmt : Stmt} {results : List Stmt} {trail : List Entry}
    {before after : Scope} (hsource : ∀ inner ∈ stmt.nested, inner.IsSource)
    (hruns : (trailStmt setting stmt).Runs before results trail after) :
    Resolves before trail (Stmt.nodesBody results) after := by
  have hone {e : Expr} {table : SymbolTable}
      (hnames : Names (IsBoundTo table) (Expr.nodesAll [e])) :
      Names (IsBoundTo table) e.nodes := names_nodesAll.mp hnames e List.mem_cons_self
  cases stmt with
  | assign span targets value =>
      simp only [trailStmt, Trailing.runs_bind, Trailing.runs_visit] at hruns
      obtain ⟨value', _, middle, rest, ⟨hvalue, rfl⟩, hassign, rfl⟩ := hruns
      have hvalue := reads_inferExpr hvalue
      exact hvalue.cons (resolves_trailAssign (hone hvalue.names) hassign)
  | augAssign span target op value =>
      simp only [trailStmt, Trailing.runs_bind, Trailing.runs_visit] at hruns
      obtain ⟨value', _, middle, rest, ⟨hvalue, rfl⟩, hstore, rfl⟩ := hruns
      have hvalue := reads_inferExpr hvalue
      exact hvalue.cons (resolves_trailStores hvalue.names hstore)
  | forIn span place source body orelse index =>
      obtain ⟨hself, hbodies⟩ := List.forall_mem_cons.mp hsource
      obtain rfl : index = none := hself.2.2
      simp only [trailStmt] at hruns
      split at hruns
      · exact absurd (Trailing.runs_quiet.mp hruns).1 not_reaches_refuse
      next horelse =>
        split at hruns
        · exact absurd (Trailing.runs_quiet.mp hruns).1 not_reaches_refuse
        · simp only [Trailing.runs_bind, Trailing.runs_visit, Trailing.runs_quiet,
            Trailing.runs_mark, Trailing.runs_pure, reaches_apply] at hruns
          obtain ⟨iter, _, first, _, ⟨hiter, rfl⟩, ⟨element, _, _, _, ⟨⟨-, rfl⟩, rfl⟩, ⟨target, _,
            second, _, ⟨htarget, rfl⟩, ⟨_, _, third, _, ⟨hbind, rfl⟩, ⟨body', trail, _, _, hbody,
            ⟨rfl, rfl, rfl⟩, rfl⟩, rfl⟩, rfl⟩, rfl⟩, rfl⟩ := hruns
          have hbody := resolves_trailBody (List.forall_mem_append.mp hbodies).1 hbody
          have hiter := (reads_inferExpr hiter).resolves
          have htarget := (reads_inferExpr htarget).resolves
          have hbind := binds_stored (stored_bindElement hbind)
          rw [List.append_nil, List.nil_append]
          refine .of_nodes (hiter.append (htarget.append
            (.append (.one rfl hbind names_nil) hbody))) fun hnames => ?_
          simp only [Expr.nodesAll, Stmt.nodesBody, names_append] at hnames
          simp [Stmt.nodesBody, Stmt.nested, Stmt.nestedBody, Stmt.nodes, Stmt.exprs,
            Expr.nodesAll, hnames]
  | whileLoop span test body orelse =>
      obtain ⟨-, hbodies⟩ := List.forall_mem_cons.mp hsource
      simp only [trailStmt] at hruns
      split at hruns
      · exact absurd (Trailing.runs_quiet.mp hruns).1 not_reaches_refuse
      · simp only [Trailing.runs_bind, Trailing.runs_visit, Trailing.runs_pure] at hruns
        obtain ⟨test', _, middle, _, ⟨htest, rfl⟩, ⟨body', trail, _, _, hbody, ⟨rfl, rfl, rfl⟩,
          rfl⟩, rfl⟩ := hruns
        have htest := (reads_inferTest htest).resolves
        have hbody := resolves_trailBody (List.forall_mem_append.mp hbodies).1 hbody
        rw [List.append_nil]
        refine (htest.append hbody).of_nodes ?_
        simp [Stmt.nodesBody, Stmt.nested, Stmt.nestedBody, Stmt.nodes, Stmt.exprs]
  | branch span test body orelse =>
      obtain ⟨-, hbodies⟩ := List.forall_mem_cons.mp hsource
      obtain ⟨hbodySource, horelseSource⟩ := List.forall_mem_append.mp hbodies
      simp only [trailStmt, Trailing.runs_bind, Trailing.runs_visit, Trailing.runs_pure] at hruns
      obtain ⟨test', _, middle, _, ⟨htest, rfl⟩, ⟨_, trail, _, _, hbody, ⟨_, rest, _, _, horelse,
        ⟨rfl, rfl, rfl⟩, rfl⟩, rfl⟩, rfl⟩ := hruns
      have htest := (reads_inferTest htest).resolves
      have hbody := resolves_trailBody hbodySource hbody
      have horelse := resolves_trailBody horelseSource horelse
      rw [List.append_nil]
      refine (htest.append (hbody.append horelse)).of_nodes ?_
      simp [Stmt.nodesBody, Stmt.nested, Stmt.nestedBody, Stmt.nodes, Stmt.exprs]
  | ret span value =>
      simp only [trailStmt, Trailing.runs_bind, Trailing.runs_visit, Trailing.runs_mark,
        Trailing.runs_pure] at hruns
      obtain ⟨value', _, middle, _, ⟨hvalue, rfl⟩, ⟨stmt, _, _, _, ⟨hreturn, rfl⟩,
        ⟨rfl, rfl, rfl⟩, rfl⟩, rfl⟩ := hruns
      have hvalue := reads_inferPart hvalue
      have hbinds := binds_result (setsResult_inferReturn hreturn)
      have hnames := hbinds.names (names_inferReturn hvalue.names hreturn)
      exact hvalue.cons (.one rfl hbinds hnames)
  | expr span value =>
      simp only [trailStmt, Trailing.runs_bind, Trailing.runs_visit, Trailing.runs_pure] at hruns
      obtain ⟨value', _, middle, _, ⟨hvalue, rfl⟩, ⟨rfl, rfl, rfl⟩, rfl⟩ := hruns
      refine (reads_inferExpr hvalue).resolves.of_nodes ?_
      simp [Stmt.nested, Stmt.nodes, Stmt.exprs]
  | print span values dest newline =>
      simp only [trailStmt, Trailing.runs_bind, Trailing.runs_visit, Trailing.runs_pure] at hruns
      obtain ⟨values', _, middle, _, ⟨hvalues, rfl⟩, ⟨dest', _, _, _, ⟨hdest, rfl⟩,
        ⟨rfl, rfl, rfl⟩, rfl⟩, rfl⟩ := hruns
      have hvalues := (reads_inferPrinted hvalues).resolves
      have hdest := (reads_inferPart hdest).resolves
      rw [List.append_nil]
      refine (hvalues.append hdest).of_nodes fun hnames => ?_
      rw [names_append] at hnames
      simp [Stmt.nested, Stmt.nodes, Stmt.exprs, Expr.nodesAll_append, hnames]
  | global =>
      simp only [trailStmt] at hruns
      exact absurd (Trailing.runs_quiet.mp hruns).1 not_reaches_refuse
  | _ =>
      simp only [trailStmt, Trailing.runs_pure] at hruns
      obtain ⟨rfl, rfl, rfl⟩ := hruns
      exact .nil after
termination_by structural stmt

/-- Inference visits the names of a body in the order of its trail. -/
theorem resolves_trailBody {body results : List Stmt} {trail : List Entry} {before after : Scope}
    (hsource : ∀ inner ∈ Stmt.nestedBody body, inner.IsSource)
    (hruns : (trailBody setting body).Runs before results trail after) :
    Resolves before trail (Stmt.nodesBody results) after := by
  cases body with
  | nil =>
      simp only [trailBody, Trailing.runs_pure] at hruns
      obtain ⟨rfl, rfl, rfl⟩ := hruns
      exact .nil after
  | cons stmt body =>
      obtain ⟨hstmt, hbody⟩ := List.forall_mem_append.mp hsource
      simp only [trailBody, Trailing.runs_bind, Trailing.runs_pure] at hruns
      obtain ⟨_, first, middle, _, hfirst, ⟨_, rest, _, _, hrest, ⟨rfl, rfl, rfl⟩, rfl⟩,
        rfl⟩ := hruns
      rw [List.append_nil, Stmt.nodesBody_append]
      exact (resolves_trailStmt hstmt hfirst).append (resolves_trailBody hbody hrest)
termination_by structural body

end

theorem resolves_trailResult {func : FunctionDef} {declared : Option Ty}
    {result : List Stmt × Ty} {trail : List Entry} (hsource : func.IsSource)
    (hruns : (trailResult setting func declared).Runs before result trail after) :
    Resolves before trail (Stmt.nodesBody result.1) after := by
  simp only [trailResult, Trailing.runs_bind, Trailing.runs_mark, Trailing.runs_pure] at hruns
  obtain ⟨body, first, middle, _, hbody, ⟨ret, _, _, _, ⟨hsettle, rfl⟩, ⟨rfl, rfl, rfl⟩, rfl⟩,
    rfl⟩ := hruns
  have hbinds := binds_result (setsResult_settleResult hsettle)
  refine .of_nodes (.append (resolves_trailBody hsource.statements hbody)
    (.one rfl hbinds names_nil)) fun hnames => ?_
  exact (names_append.mp hnames).1

end Inference

/-! ## The bindings of a function -/

namespace FunctionDef

open Inference

/-- The bindings that a function has before its body is visited, without their types: those of its
result, of its parameters, of its other locals and of `None`. -/
def ownBindings (func : FunctionDef) : List Variable :=
  {} :: (func.args ++ func.localNames).map (Variable.localNamed · none) ++
    [{ Variable.constant .nothing .object with ty := none, name := some "None" }]

theorem erased_ofFunction {func : FunctionDef} {args : List Ty}
    (hlength : func.args.length = args.length) :
    (Scope.ofFunction func args).symbols.erased = func.ownBindings := by
  have hparameters (declared : String × Ty → Variable)
      (hdeclared : ∀ arg, (declared arg).erased = Variable.localNamed arg.1 none) :
      ((func.args.zip args).map declared).map Variable.erased =
        func.args.map (Variable.localNamed · none) := by
    have hnames : (func.args.zip args).map Prod.fst = func.args :=
      List.map_fst_zip (Nat.le_of_eq hlength)
    conv_rhs => rw [← hnames, List.map_map]
    rw [List.map_map]
    exact List.map_congr_left fun arg _ => hdeclared arg
  have hlocals : (func.localNames.map fun name => Variable.localNamed name none).map
      Variable.erased = func.localNames.map (Variable.localNamed · none) := by
    rw [List.map_map]
    rfl
  rw [SymbolTable.erased, Scope.ofFunction, Scope.vars_foldl_declare, List.map_append,
    List.map_append, List.map_append, hparameters _ fun _ => rfl, hlocals, ← List.map_append]
  rfl

theorem boundNames_ownBindings (func : FunctionDef) :
    func.ownBindings.filterMap Variable.name = func.ownNames := by
  have hlocals (names : List String) :
      (names.map (Variable.localNamed · none)).filterMap Variable.name = names := by
    rw [List.filterMap_map]
    exact List.filterMap_some
  rw [ownBindings, List.filterMap_append, List.filterMap_cons_none rfl, hlocals]
  rfl

theorem nodup_ownNames {func : FunctionDef} (hargs : func.args.Nodup)
    (hnone : "None" ∉ func.args ++ func.localNames) : func.ownNames.Nodup := by
  have hlocals : func.localNames.Nodup := nodup_firstOccurrences _ _
  refine List.nodup_append'.mpr ⟨List.nodup_append'.mpr ⟨hargs, hlocals, ?_⟩, ?_, ?_⟩
  · exact fun _ harg hlocal => (of_mem_firstOccurrences hlocal).2 harg
  · exact List.nodup_singleton _
  · exact fun name hname hnothing => hnone (List.mem_singleton.mp hnothing ▸ hname)

theorem returnSlot_ofFunction (func : FunctionDef) (args : List Ty) :
    (Scope.ofFunction func args).symbols.returnSlot = some Scope.resultSlot := by
  have hdeclare (vars : List Variable) (scope : Scope) :
      (vars.foldl Scope.declare scope).symbols.returnSlot = scope.symbols.returnSlot := by
    induction vars generalizing scope with
    | nil => rfl
    | cons var vars ih => exact ih _
  exact hdeclare _ _

/-- What a trail says about the bindings and the names of the function that it leads to. -/
theorem resolves_trailFunction {setting : Setting} {func : FunctionDef} {signature : Signature}
    {inferred : Inferred} {trail : List Entry} (hsource : func.IsSource)
    (htrail : Pass.Succeeds (trailFunction setting func signature) (inferred, trail)) :
    (inferred.symbols.erased = func.ownBindings ++
      (firstOccurrences func.ownNames (visitedNames (trail.map Entry.act))).map Variable.free) ∧
    inferred.symbols.boundNames = func.ownNames ++
      firstOccurrences func.ownNames (visitedNames (trail.map Entry.act)) ∧
    inferred.symbols.returnSlot = some Scope.resultSlot ∧
    Names (IsBoundTo inferred.symbols) (Stmt.nodesBody inferred.func.body) := by
  obtain ⟨hlength, body, ret, after, hruns, rfl⟩ := succeeds_trailFunction_iff.mp htrail
  obtain ⟨hbinds, hnames⟩ := resolves_trailResult hsource hruns
  have hstart : (Scope.ofFunction func signature.args).symbols.boundNames = func.ownNames := by
    rw [SymbolTable.boundNames_eq, erased_ofFunction hlength, boundNames_ownBindings]
  refine ⟨?_, ?_, hbinds.slot.trans (returnSlot_ofFunction _ _), hnames⟩
  · rw [hbinds.erased, erased_ofFunction hlength, hstart]
  · rw [hbinds.boundNames, hstart]

/-- A binding is that of a local exactly if its name is a parameter or is bound by a statement. -/
theorem isLocal_iff {func : FunctionDef} {names : List String} {var : Variable} {name : String}
    (hnone : "None" ∉ func.args ++ func.localNames)
    (hvar : var ∈ func.ownBindings ++ (firstOccurrences func.ownNames names).map Variable.free)
    (hname : var.name = some name) :
    var.isLocal = true ↔ name ∈ func.args ∨ name ∈ func.localNames := by
  rw [← List.mem_append]
  rcases List.mem_append.mp hvar with hown | hfree
  · rcases List.mem_append.mp hown with hlocal | hnothing
    · rcases List.mem_cons.mp hlocal with rfl | hlocal
      · cases hname
      · obtain ⟨own, hmem, rfl⟩ := List.mem_map.mp hlocal
        obtain rfl : own = name := Option.some.inj hname
        exact iff_of_true rfl hmem
    · obtain rfl := List.mem_singleton.mp hnothing
      obtain rfl : "None" = name := Option.some.inj hname
      exact iff_of_false Bool.false_ne_true hnone
  · obtain ⟨free, hmem, rfl⟩ := List.mem_map.mp hfree
    obtain rfl : free = name := Option.some.inj hname
    refine iff_of_false Bool.false_ne_true fun hown => (of_mem_firstOccurrences hmem).2 ?_
    exact List.mem_append_left _ hown

/-- The bindings of an inferred function, in the order in which they were made: those of the result,
of the parameters, of the other locals and of `None`, and then one for each free name, in the order
in which the names are visited first. No two have the same name. A trail lists the visits in the
order of the source; it is complete unless a value is unpacked whose type records fewer constants
than its size. Every name in the inferred function is bound to the binding of this name, which is
that of a local exactly if the name is a parameter or is bound by a statement. -/
theorem bindings_inferred {setting : Setting} {func : FunctionDef} {signature : Signature}
    {inferred : Inferred} (hsource : func.IsSource) (hargs : func.args.Nodup)
    (hnone : "None" ∉ func.args ++ func.localNames)
    (hinfer : Pass.Succeeds (inferFunction setting func signature) inferred) :
    (∃ trail, Pass.Succeeds (trailFunction setting func signature) (inferred, trail)) ∧
    (∀ stmt ∈ func.statements, ∀ node ∈ stmt.nodes, node.asName.isSome →
      ∃ act ∈ functionActs func, node ∈ act.nodes) ∧
    (∀ trail, Pass.Succeeds (trailFunction setting func signature) (inferred, trail) →
      (trail.map Entry.act).Sublist (functionActs func) ∧
      ((∀ entry ∈ trail, entry.isShort = false) → trail.map Entry.act = functionActs func) ∧
      inferred.symbols.erased = func.ownBindings ++
        (firstOccurrences func.ownNames (visitedNames (trail.map Entry.act))).map Variable.free) ∧
    inferred.symbols.returnSlot = some Scope.resultSlot ∧
    inferred.symbols.boundNames.Nodup ∧
    ∀ stmt ∈ inferred.func.statements, ∀ node ∈ stmt.nodes, ∀ name, node.asName = some name →
      ∃ id var, node.binding = some (.symbol id) ∧ inferred.symbols.get? id = some var ∧
        var.name = some name ∧
        (var.isLocal = true ↔ name ∈ func.args ∨ name ∈ func.localNames) := by
  obtain ⟨trail, htrail⟩ := succeeds_inferFunction_iff_trail.mp hinfer
  obtain ⟨herased, hbound, hslot, hnames⟩ := resolves_trailFunction hsource htrail
  refine ⟨⟨trail, htrail⟩, fun stmt hstmt node hnode => exists_act_of_mem_nodes hsource hstmt hnode,
    fun other hother => ?_, hslot, ?_, fun stmt hstmt node hnode name hname => ?_⟩
  · obtain ⟨-, body, ret, after, hruns, -⟩ := succeeds_trailFunction_iff.mp hother
    obtain ⟨-, hsublist, hcomplete⟩ := performs_trailResult hsource hruns
    exact ⟨hsublist, hcomplete, (resolves_trailFunction hsource hother).1⟩
  · rw [hbound]
    refine List.nodup_append'.mpr ⟨nodup_ownNames hargs hnone, nodup_firstOccurrences _ _, ?_⟩
    exact fun _ hown hfree => (of_mem_firstOccurrences hfree).2 hown
  · have hmem : node ∈ Stmt.nodesBody inferred.func.body :=
      List.mem_flatMap.mpr ⟨stmt, hstmt, hnode⟩
    obtain ⟨id, hid, hnamed⟩ := hnames node hmem (Option.isSome_of_mem hname)
    obtain ⟨var, hvar, hvarName⟩ := Option.bind_eq_some_iff.mp (hnamed.trans hname)
    refine ⟨id, var, hid, hvar, hvarName, ?_⟩
    have hmem : var.erased ∈ inferred.symbols.erased :=
      List.mem_map_of_mem (List.mem_of_getElem? hvar)
    rw [herased] at hmem
    have hlocal := isLocal_iff hnone hmem hvarName
    exact hlocal

end FunctionDef

/-- A setting in which `range` is a builtin and every other free name is global. -/
def rangeAndGlobals : Inference.Setting where
  names.lookup name := if name = "range" then .builtin else .global
  names.attribute? _ _ := none

/-- `for i in range(n): a, b = i, scale(limit); print a, limit`, then `return None`. -/
def rescaling : FunctionDef :=
  open Builder in
  function "rescaling" ["n"]
    [forIn (store "i") (call (load "range") [load "n"])
      [assign (tupleStore [store "a", store "b"])
          (tuple [load "i", call (load "scale") [load "limit"]]),
        print [load "a", load "limit"]],
      ret (some (load "None"))]

theorem bindings_inferred_rescaling : rescaling.IsSource ∧ rescaling.args.Nodup ∧
    "None" ∉ rescaling.args ++ rescaling.localNames ∧
    ∃ inferred, Pass.Succeeds
        (Inference.inferFunction rangeAndGlobals rescaling { args := [.int64] }) inferred ∧
      inferred.symbols.boundNames = ["n", "i", "a", "b", "None", "range", "scale", "limit"] ∧
      inferred.symbols.boundNames.Nodup ∧
      ∀ stmt ∈ inferred.func.statements, ∀ node ∈ stmt.nodes, ∀ name, node.asName = some name →
        ∃ id var, node.binding = some (.symbol id) ∧ inferred.symbols.get? id = some var ∧
          var.name = some name ∧
          (var.isLocal = true ↔ name ∈ rescaling.args ∨ name ∈ rescaling.localNames) := by
  have hsource : rescaling.IsSource := by decide +kernel
  have hargs : rescaling.args.Nodup := by decide +kernel
  have hnone : "None" ∉ rescaling.args ++ rescaling.localNames := by decide +kernel
  obtain ⟨inferred, hinfer, hnames⟩ : ∃ inferred, Pass.Succeeds
      (Inference.inferFunction rangeAndGlobals rescaling { args := [.int64] }) inferred ∧
      decide (inferred.symbols.boundNames =
        ["n", "i", "a", "b", "None", "range", "scale", "limit"]) = true :=
    Pass.exists_succeeds (fun _ _ => .host) (by decide +kernel)
  obtain ⟨-, -, -, -, hnodup, hbound⟩ :=
    FunctionDef.bindings_inferred hsource hargs hnone hinfer
  exact ⟨hsource, hargs, hnone, inferred, hinfer, of_decide_eq_true hnames, hnodup, hbound⟩

end KernelFront
