import KernelFront.Proofs.Inference.Calls

/-! # Inference of expressions keeps agreement

Visiting an expression grows the scope and leaves settled expressions. Each form visits its parts
one after the other, so what was settled when a part was visited is still settled at the end, where
the rule of the form is applied.
-/

namespace KernelFront.Inference

open Scope (resultSlot)

/-- Inference went from one scope to a later one, where the bindings satisfy `fact`. -/
structure Visited (before : Scope) (fact : SymbolTable → Prop) (after : Scope) : Prop where
  grows : before.Grows after
  holds : before.Anonymous → fact after.symbols

namespace Visited

variable {before middle after : Scope} {fact other : SymbolTable → Prop}

theorem refl (hfact : fact before.symbols) : Visited before fact before :=
  ⟨.refl before, fun _ => hfact⟩

/-- A rule is applied to what was visited. -/
theorem rule (hvisited : Visited before fact after)
    (hrule : fact after.symbols → other after.symbols) :
    Visited before other after :=
  ⟨hvisited.grows, fun hanonymous => hrule (hvisited.holds hanonymous)⟩

/-- What comes next may rely on what was visited. -/
theorem trans (hfirst : Visited before fact middle)
    (hsecond : Visited middle (fun table => fact middle.symbols → other table) after) :
    Visited before other after := by
  refine ⟨hfirst.grows.trans hsecond.grows, fun hanonymous => ?_⟩
  exact hsecond.holds (hfirst.grows.anonymous hanonymous) (hfirst.holds hanonymous)

theorem append {index : Ty} {first second : List Expr}
    (hfirst : Visited before (Settled index · first) middle)
    (hsecond : Visited middle (Settled index · second) after) :
    Visited before (Settled index · (first ++ second)) after :=
  hfirst.trans <| hsecond.rule fun hlater hearlier =>
    settled_append.mpr ⟨hearlier.mono hsecond.grows, hlater⟩

end Visited

/-- A free name gets a binding of its own. -/
theorem reaches_bindFree {setting : Setting} {name : String} {before after : Scope} {id : SymbolId}
    (hreach : Pass.Reaches (bindFree setting name) before id after) :
    ∃ ty, id = ⟨before.symbols.size⟩ ∧
      after.symbols = (before.symbols.insert (.globalNamed name ty)).2 := by
  simp only [bindFree, pure_bind] at hreach
  split at hreach
  all_goals simp only [Pass.reaches_bind, Pass.reaches_modify, Pass.reaches_get, Pass.reaches_pure,
    reaches_report, SymbolTable.insert] at hreach
  · obtain ⟨_, _, rfl, _, _, ⟨rfl, rfl⟩, _, _, rfl, rfl, rfl⟩ := hreach
    exact ⟨_, rfl, rfl⟩
  · obtain ⟨_, _, rfl, _, _, ⟨rfl, rfl⟩, _, _, rfl, rfl, rfl⟩ := hreach
    exact ⟨_, rfl, rfl⟩
  · obtain ⟨_, _, rfl, _, _, rfl, _, _, ⟨rfl, rfl⟩, _, _, rfl, rfl, rfl⟩ := hreach
    exact ⟨_, rfl, rfl⟩
  · obtain ⟨_, _, rfl, _, _, ⟨rfl, rfl⟩, _, _, rfl, rfl, rfl⟩ := hreach
    exact ⟨_, rfl, rfl⟩

theorem visited_name {setting : Setting} {before after : Scope} {name : String} {access : Access}
    {span : Span} {id : SymbolId} (hgrows : before.Grows after)
    (hid : before.Anonymous → id ≠ resultSlot) :
    Visited before (Settled setting.options.indexType ·
      (Expr.name { span, binding := some (.symbol id) } name access).nodes) after := by
  refine ⟨hgrows, fun hanonymous => ?_⟩
  simp only [Expr.nodes, settled_cons, settled_nil, and_true]
  exact ⟨⟨hid hanonymous, rfl⟩, trivial⟩

theorem visited_visitName {setting : Setting} {name : String} {access : Access} {span : Span}
    {before after : Scope} {result : Expr}
    (hreach : Pass.Reaches (visitName setting name access span) before result after) :
    Visited before (Settled setting.options.indexType · result.nodes) after := by
  simp only [visitName, pure_bind, Pass.reaches_bind, Pass.reaches_get] at hreach
  obtain ⟨_, start, ⟨rfl, rfl⟩, hreach⟩ := hreach
  split at hreach
  · rename_i id hid
    split at hreach
    · simp only [Pass.reaches_bind, not_reaches_refuse, false_and, exists_false] at hreach
    · obtain ⟨rfl, rfl⟩ := Pass.reaches_pure.mp hreach
      exact visited_name (.refl _) fun hanonymous => hanonymous.lookup_ne hid
  · simp only [Pass.reaches_bind, Pass.reaches_pure] at hreach
    obtain ⟨id, _, hfree, rfl, rfl⟩ := hreach
    obtain ⟨ty, rfl, hafter⟩ := reaches_bindFree hfree
    refine visited_name (Scope.grows_insert _ hafter) ?_
    -- The binding of the result is there already, so the new one has a later position.
    rintro ⟨var, hvar, _⟩ hslot
    have hsize : start.symbols.vars.length = resultSlot.index := congrArg SymbolId.index hslot
    rw [SymbolTable.get?, ← hsize, List.getElem?_eq_none Nat.le.refl] at hvar
    cases hvar

variable {setting : Setting}

mutual

/-- Visiting an expression leaves a settled expression. -/
theorem visited_inferExpr {e result : Expr} {before after : Scope}
    (hreach : Pass.Reaches (inferExpr setting e) before result after) :
    Visited before (Settled setting.options.indexType · result.nodes) after := by
  cases e with
  | name note id access =>
      simp only [inferExpr] at hreach
      exact visited_visitName hreach
  | const note value =>
      simp only [inferExpr, Pass.reaches_pure] at hreach
      obtain ⟨rfl, rfl⟩ := hreach
      exact .refl (settled_constantOf _ _ _)
  | ellipsis note =>
      simp only [inferExpr, Pass.reaches_pure] at hreach
      obtain ⟨rfl, rfl⟩ := hreach
      exact .refl (settled_cons.mpr ⟨⟨trivial, trivial⟩, settled_nil⟩)
  | binOp note left op right =>
      simp only [inferExpr, Pass.reaches_bind, reaches_apply] at hreach
      obtain ⟨left', middle, hleft, right', last, hright, hrule, rfl⟩ := hreach
      exact ((visited_inferExpr hleft).append (visited_inferExpr hright)).rule fun hparts =>
        settled_typeBinOp hparts hrule
  | boolOp note op values =>
      obtain ⟨values', hvalues, rfl⟩ := reaches_boolOp hreach
      exact (visited_inferAll hvalues).rule (settled_typeBoolOp op)
  | unaryOp note op operand =>
      simp only [inferExpr, Pass.reaches_bind, reaches_apply] at hreach
      obtain ⟨operand', middle, hoperand, hrule, rfl⟩ := hreach
      exact (visited_inferExpr hoperand).rule fun hparts => settled_typeUnaryOp hparts hrule
  | compare note left ops comparators =>
      obtain ⟨op, left', middle, right', hleft, hright, hrule⟩ := reaches_compare hreach
      have hright := visited_inferAll hright
      simp only [Expr.nodesAll, List.append_nil] at hright
      exact ((visited_inferExpr hleft).append hright).rule fun hparts =>
        settled_typeCompare hparts hrule
  | call note func args keywords =>
      simp only [inferExpr, Pass.reaches_bind] at hreach
      obtain ⟨func', first, hfunc, args', second, hargs, keywords', third, hkeywords, hcall⟩ :=
        hreach
      have hparts := ((visited_inferExpr hfunc).append (visited_inferAll hargs)).append
        (visited_inferKeywords hkeywords)
      obtain ⟨rfl, hresult⟩ := visited_typeCall hcall
      exact hparts.rule hresult
  | «attribute» note value attr access =>
      simp only [inferExpr, Pass.reaches_bind, reaches_apply] at hreach
      obtain ⟨value', middle, hvalue, hrule, rfl⟩ := hreach
      exact (visited_inferExpr hvalue).rule fun hparts => settled_typeAttribute hparts hrule
  | subscript note value selector access =>
      simp only [inferExpr, Pass.reaches_bind, reaches_apply] at hreach
      obtain ⟨value', middle, hvalue, selector', last, hselector, hrule, rfl⟩ := hreach
      exact ((visited_inferExpr hvalue).append (visited_inferExpr hselector)).rule fun hparts =>
        settled_typeSubscript hparts hrule
  | index note value =>
      simp only [inferExpr, Pass.reaches_bind, reaches_apply] at hreach
      obtain ⟨value', middle, hvalue, hrule, rfl⟩ := hreach
      exact (visited_inferExpr hvalue).rule fun hparts => settled_typeIndex hparts hrule
  | slice note lower upper step =>
      simp only [inferExpr, Pass.reaches_bind, Pass.reaches_pure] at hreach
      obtain ⟨lower', first, hlower, upper', second, hupper, step', third, hstep, rfl, rfl⟩ :=
        hreach
      have hparts := ((visited_inferPart hlower).append (visited_inferPart hupper)).append
        (visited_inferPart hstep)
      refine hparts.rule fun hparts => ?_
      simp only [Expr.nodes, Expr.nodesPart_eq, settled_cons]
      exact ⟨⟨trivial, trivial⟩, hparts⟩
  | extSlice note dims =>
      simp only [inferExpr, Pass.reaches_bind, Pass.reaches_pure] at hreach
      obtain ⟨dims', middle, hdims, rfl, rfl⟩ := hreach
      exact (visited_inferAll hdims).rule fun hparts =>
        settled_cons.mpr ⟨⟨trivial, trivial⟩, hparts⟩
  | tuple note elts access =>
      simp only [inferExpr, Pass.reaches_bind, reaches_apply, Except.ok.injEq] at hreach
      obtain ⟨elts', middle, helts, rfl, rfl⟩ := hreach
      exact (visited_inferAll helts).rule fun hparts =>
        settled_cons.mpr ⟨⟨trivial, trivial⟩, hparts⟩
  | list note elts access =>
      simp only [inferExpr, Pass.reaches_bind, Pass.reaches_pure] at hreach
      obtain ⟨elts', middle, helts, rfl, rfl⟩ := hreach
      exact (visited_inferAll helts).rule fun hparts =>
        settled_cons.mpr ⟨⟨trivial, trivial⟩, hparts⟩
  | dict note keys values =>
      simp only [inferExpr, Pass.reaches_bind, reaches_apply, Except.ok.injEq] at hreach
      obtain ⟨keys', middle, hkeys, values', last, hvalues, rfl, rfl⟩ := hreach
      exact ((visited_inferAll hkeys).append (visited_inferAll hvalues)).rule settled_typeDict
  | _ => simp only [inferExpr, not_reaches_refuse] at hreach
termination_by structural e

theorem visited_inferAll {es results : List Expr} {before after : Scope}
    (hreach : Pass.Reaches (inferAll setting es) before results after) :
    Visited before (Settled setting.options.indexType · (Expr.nodesAll results)) after := by
  cases es with
  | nil =>
      simp only [inferAll, Pass.reaches_pure] at hreach
      obtain ⟨rfl, rfl⟩ := hreach
      exact .refl settled_nil
  | cons e es =>
      simp only [inferAll, Pass.reaches_bind, Pass.reaches_pure] at hreach
      obtain ⟨e', middle, he, es', last, hes, rfl, rfl⟩ := hreach
      exact (visited_inferExpr he).append (visited_inferAll hes)
termination_by structural es

theorem visited_inferKeywords {keywords results : List (String × Expr)} {before after : Scope}
    (hreach : Pass.Reaches (inferKeywords setting keywords) before results after) :
    Visited before (Settled setting.options.indexType ·
      (Expr.nodesAll (results.map Prod.snd))) after := by
  cases keywords with
  | nil =>
      simp only [inferKeywords, Pass.reaches_pure] at hreach
      obtain ⟨rfl, rfl⟩ := hreach
      exact .refl settled_nil
  | cons keyword keywords =>
      obtain ⟨name, e⟩ := keyword
      simp only [inferKeywords, Pass.reaches_bind, Pass.reaches_pure] at hreach
      obtain ⟨e', middle, he, keywords', last, hkeywords, rfl, rfl⟩ := hreach
      exact (visited_inferExpr he).append (visited_inferKeywords hkeywords)
termination_by structural keywords

theorem visited_inferPart {part result : Option Expr} {before after : Scope}
    (hreach : Pass.Reaches (inferPart setting part) before result after) :
    Visited before (Settled setting.options.indexType · (Expr.nodesAll result.toList)) after := by
  cases part with
  | none =>
      simp only [inferPart, Pass.reaches_pure] at hreach
      obtain ⟨rfl, rfl⟩ := hreach
      exact .refl settled_nil
  | some e =>
      simp only [inferPart, Pass.reaches_bind, Pass.reaches_pure] at hreach
      obtain ⟨e', middle, he, rfl, rfl⟩ := hreach
      simpa only [Option.toList_some, Expr.nodesAll, List.append_nil] using visited_inferExpr he
termination_by structural part

end

end KernelFront.Inference
