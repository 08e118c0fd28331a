import KernelFront.Proofs.Inference.Rules
import KernelFront.Typing

/-! # Fixing types keeps agreement

Every node receives the type of its binding. So a type that was settled when the parts of a node
were visited is the type that is fixed on them, and what agreed then agrees in the fixed tree.
-/

namespace KernelFront

namespace Expr

@[simp] theorem note_withNote (note : Note) (e : Expr) : (e.withNote note).note = note := by
  cases e <;> rfl

theorem withTy_of_ty {e : Expr} {ty : Ty} (hty : e.ty = some ty) : e.withTy ty = e := by
  have hnote : { e.note with ty := some ty } = e.note := by rw [← hty]; rfl
  unfold withTy
  rw [hnote]
  cases e <;> rfl

theorem typeIn?_withTy {table : SymbolTable} {e : Expr} {ty : Ty}
    (hty : e.typeIn? table = some ty) : (e.withTy ty).typeIn? table = some ty := by
  have hbinding : (e.withTy ty).boundVar? table = e.boundVar? table := by
    unfold boundVar? binding withTy
    rw [note_withNote]
  unfold typeIn? at hty ⊢
  rw [hbinding]
  split at hty
  · exact hty
  · unfold Expr.ty withTy
    rw [note_withNote]

end Expr

namespace Inference

/-- All these expressions have a type, and their parts have the types that they ask for. -/
def Sound (index : Ty) (nodes : List Expr) : Prop :=
  ∀ node ∈ nodes, node.ty.isSome ∧ node.Agrees index Expr.ty

section Sound

variable {index : Ty}

@[simp] theorem sound_nil : Sound index [] := List.forall_mem_nil _

@[simp] theorem sound_cons {node : Expr} {nodes : List Expr} :
    Sound index (node :: nodes) ↔
      (node.ty.isSome ∧ node.Agrees index Expr.ty) ∧ Sound index nodes :=
  List.forall_mem_cons

@[simp] theorem sound_append {first second : List Expr} :
    Sound index (first ++ second) ↔ Sound index first ∧ Sound index second :=
  List.forall_mem_append

end Sound

/-- The fixed form of an expression has the type that its binding has. -/
structure Fixed (index : Ty) (table : SymbolTable) (e fixed : Expr) : Prop where
  ty : fixed.ty = e.typeIn? table
  typeIn : fixed.typeIn? table = e.typeIn? table
  sound : Sound index fixed.nodes

/-- The fixed forms of several expressions have the types that their bindings have. -/
structure FixedAll (index : Ty) (table : SymbolTable) (es fixed : List Expr) : Prop where
  types : fixed.map Expr.ty = es.map (Expr.typeIn? table)
  sound : Sound index (Expr.nodesAll fixed)

variable {index : Ty} {table : SymbolTable}

/-- What all of several expressions were settled at is fixed on all of them. -/
theorem FixedAll.forall_ty {es fixed : List Expr} {ty : Ty} (hfixed : FixedAll index table es fixed)
    (hes : ∀ e ∈ es, settledType? table e = some ty) : ∀ e ∈ fixed, e.ty = some ty := by
  intro e he
  have hmem : e.ty ∈ es.map (Expr.typeIn? table) := hfixed.types ▸ List.mem_map_of_mem he
  obtain ⟨source, hsource, hty⟩ := List.mem_map.mp hmem
  rw [← hty]
  exact typeIn?_of_settled (hes source hsource)

theorem Fixed.ty_of_settled {e fixed : Expr} {ty : Ty} (hfixed : Fixed index table e fixed)
    (hty : settledType? table e = some ty) : fixed.ty = some ty :=
  hfixed.ty.trans (typeIn?_of_settled hty)

/-- A node whose parts are fixed. -/
theorem fixed_node {e rebuilt fixed : Expr} {below : List Expr}
    (hfix : rebuilt.fixType table = .ok fixed) (hnote : rebuilt.note = e.note)
    (hplain : rebuilt.resolveDeferred table = .ok rebuilt)
    (hnodes : ∀ ty, (rebuilt.withTy ty).nodes = rebuilt.withTy ty :: below)
    (hbelow : Sound index below)
    (hagrees : ∀ ty, e.typeIn? table = some ty → (rebuilt.withTy ty).Agrees index Expr.ty) :
    Fixed index table e fixed := by
  have hsame : rebuilt.typeIn? table = e.typeIn? table := by
    unfold Expr.typeIn? Expr.boundVar? Expr.binding Expr.ty
    rw [hnote]
  simp only [Expr.fixType, hplain, bind_eq_ok, Except.ok.injEq, exists_eq_left'] at hfix
  split at hfix
  · rename_i ty hty
    cases hfix
    have hfixedTy : (rebuilt.withTy ty).ty = some ty := by simp [Expr.withTy, Expr.ty]
    refine ⟨hfixedTy.trans (hsame ▸ hty).symm,
      (Expr.typeIn?_withTy hty).trans (hsame ▸ hty).symm, ?_⟩
    rw [hnodes]
    exact sound_cons.mpr ⟨⟨by rw [hfixedTy]; rfl, hagrees ty (hsame ▸ hty)⟩, hbelow⟩
  · cases hfix

mutual

/-- Fixing the types of a settled expression. -/
theorem fixed_fixTypes {e fixed : Expr} (hsettled : Settled index table e.nodes)
    (hfix : e.rebuildM (Expr.fixType table) = .ok fixed) : Fixed index table e fixed := by
  have hagrees := (hsettled e e.mem_nodes_self).2
  cases e with
  | name | const | ellipsis =>
      simp only [Expr.rebuildM] at hfix
      exact fixed_node hfix rfl rfl (fun _ => rfl) sound_nil fun _ _ => trivial
  | binOp note left op right =>
      simp only [Expr.nodes, settled_cons, settled_append] at hsettled
      simp only [Expr.rebuildM, bind_eq_ok] at hfix
      obtain ⟨left', hleft, right', hright, hfix⟩ := hfix
      have hleft := fixed_fixTypes hsettled.2.1 hleft
      have hright := fixed_fixTypes hsettled.2.2 hright
      have hbelow := sound_append.mpr ⟨hleft.sound, hright.sound⟩
      refine fixed_node hfix rfl rfl (fun _ => rfl) hbelow ?_
      -- The type at which the operands meet is the one that is fixed on the operation.
      intro ty hty
      obtain ⟨ty', hown, hleftTy, hrightTy⟩ := hagrees
      cases hty.symm.trans (typeIn?_of_settled hown)
      exact ⟨ty, rfl, hleft.ty_of_settled hleftTy, hright.ty_of_settled hrightTy⟩
  | boolOp note op values =>
      simp only [Expr.rebuildM, bind_eq_ok] at hfix
      obtain ⟨values', hvalues, hfix⟩ := hfix
      have hvalues := fixed_fixAll (settled_cons.mp hsettled).2 hvalues
      exact fixed_node hfix rfl rfl (fun _ => rfl) hvalues.sound fun _ _ =>
        hvalues.forall_ty hagrees
  | unaryOp note op operand =>
      simp only [Expr.rebuildM, bind_eq_ok] at hfix
      obtain ⟨operand', hoperand, hfix⟩ := hfix
      have hoperand := fixed_fixTypes (settled_cons.mp hsettled).2 hoperand
      exact fixed_node hfix rfl rfl (fun _ => rfl) hoperand.sound fun _ _ hop =>
        hoperand.ty_of_settled (hagrees hop)
  | compare note left ops comparators =>
      simp only [Expr.nodes, settled_cons, settled_append] at hsettled
      simp only [Expr.rebuildM, bind_eq_ok] at hfix
      obtain ⟨left', hleft, comparators', hrights, hfix⟩ := hfix
      have hleft := fixed_fixTypes hsettled.2.1 hleft
      have hrights := fixed_fixAll hsettled.2.2 hrights
      have hbelow := sound_append.mpr ⟨hleft.sound, hrights.sound⟩
      refine fixed_node hfix rfl rfl (fun _ => rfl) hbelow ?_
      intro _ _
      obtain ⟨ty, hleftTy, hrightTys⟩ := hagrees
      exact ⟨ty, hleft.ty_of_settled hleftTy, hrights.forall_ty hrightTys⟩
  | subscript note value selector access =>
      simp only [Expr.nodes, settled_cons, settled_append] at hsettled
      simp only [Expr.rebuildM, bind_eq_ok] at hfix
      obtain ⟨value', hvalue, selector', hselector, hfix⟩ := hfix
      have hvalue := fixed_fixTypes hsettled.2.1 hvalue
      have hselector := fixed_fixTypes hsettled.2.2 hselector
      exact fixed_node hfix rfl rfl (fun _ => rfl)
        (sound_append.mpr ⟨hvalue.sound, hselector.sound⟩) fun _ _ => trivial
  | index note value | coercion note value target | «attribute» note value attr access
  | arrayAttribute note attr value access =>
      simp only [Expr.rebuildM, bind_eq_ok] at hfix
      obtain ⟨value', hvalue, hfix⟩ := hfix
      have hvalue := fixed_fixTypes (settled_cons.mp hsettled).2 hvalue
      exact fixed_node hfix rfl rfl (fun _ => rfl) hvalue.sound fun _ _ => trivial
  | slice note lower upper step =>
      simp only [Expr.nodes, Expr.nodesPart_eq, settled_cons, settled_append] at hsettled
      simp only [Expr.rebuildM, bind_eq_ok] at hfix
      obtain ⟨lower', hlower, upper', hupper, step', hstep, hfix⟩ := hfix
      have hlower := fixed_fixPart hsettled.2.1.1 hlower
      have hupper := fixed_fixPart hsettled.2.1.2 hupper
      have hstep := fixed_fixPart hsettled.2.2 hstep
      refine fixed_node hfix rfl rfl (fun _ => rfl) ?_ fun _ _ => trivial
      simp only [Expr.nodesPart_eq, sound_append]
      exact ⟨⟨hlower.sound, hupper.sound⟩, hstep.sound⟩
  | extSlice note es | tuple note es access | list note es access =>
      simp only [Expr.rebuildM, bind_eq_ok] at hfix
      obtain ⟨es', hes, hfix⟩ := hfix
      have hes := fixed_fixAll (settled_cons.mp hsettled).2 hes
      exact fixed_node hfix rfl rfl (fun _ => rfl) hes.sound fun _ _ => trivial
  | dict note keys values =>
      simp only [Expr.nodes, settled_cons, settled_append] at hsettled
      simp only [Expr.rebuildM, bind_eq_ok] at hfix
      obtain ⟨keys', hkeys, values', hvalues, hfix⟩ := hfix
      have hkeys := fixed_fixAll hsettled.2.1 hkeys
      have hvalues := fixed_fixAll hsettled.2.2 hvalues
      have hbelow := sound_append.mpr ⟨hkeys.sound, hvalues.sound⟩
      refine fixed_node hfix rfl rfl (fun _ => rfl) hbelow ?_
      intro _ _
      obtain ⟨hkeyTys, hvalueTys⟩ := List.forall_mem_append.mp hagrees
      exact List.forall_mem_append.mpr ⟨hkeys.forall_ty hkeyTys, hvalues.forall_ty hvalueTys⟩
  | range note start stop step =>
      simp only [Expr.nodes, settled_cons, settled_append] at hsettled
      simp only [Expr.rebuildM, bind_eq_ok] at hfix
      obtain ⟨start', hstart, stop', hstop, step', hstep, hfix⟩ := hfix
      have hstart := fixed_fixTypes hsettled.2.1.1 hstart
      have hstop := fixed_fixTypes hsettled.2.1.2 hstop
      have hstep := fixed_fixTypes hsettled.2.2 hstep
      have hbelow := sound_append.mpr ⟨sound_append.mpr ⟨hstart.sound, hstop.sound⟩, hstep.sound⟩
      refine fixed_node hfix rfl rfl (fun _ => rfl) hbelow fun _ _ => ?_
      simp only [Expr.Agrees, List.forall_mem_cons] at hagrees
      simp only [Expr.withTy, Expr.withNote, Expr.Agrees, List.forall_mem_cons]
      exact ⟨hstart.ty_of_settled hagrees.1, hstop.ty_of_settled hagrees.2.1,
        hstep.ty_of_settled hagrees.2.2.1, List.forall_mem_nil _⟩
  | nativeCall note symbol signature args =>
      simp only [Expr.rebuildM, bind_eq_ok] at hfix
      obtain ⟨args', hargs, hfix⟩ := hfix
      have hargs := fixed_fixAll (settled_cons.mp hsettled).2 hargs
      refine fixed_node hfix rfl rfl (fun _ => rfl) hargs.sound fun _ _ => ?_
      exact hargs.types.trans (map_eq_some_mono typeIn?_of_settled hagrees)
  | objectCall note func args keywords =>
      simp only [Expr.nodes, Expr.nodesKeywords_eq, settled_cons, settled_append] at hsettled
      simp only [Expr.rebuildM, bind_eq_ok] at hfix
      obtain ⟨func', hfunc, args', hargs, keywords', hkeywords, hfix⟩ := hfix
      have hfunc := fixed_fixTypes hsettled.2.1.1 hfunc
      have hargs := fixed_fixAll hsettled.2.1.2 hargs
      have hkeywords := fixed_fixKeywords hsettled.2.2 hkeywords
      obtain ⟨hfuncTy, hrest⟩ := List.forall_mem_cons.mp hagrees
      obtain ⟨hargTys, hkeywordTys⟩ := List.forall_mem_append.mp hrest
      refine fixed_node hfix rfl rfl (fun _ => rfl) ?_ fun _ _ => ?_
      · simp only [Expr.nodesKeywords_eq, sound_append]
        exact ⟨⟨hfunc.sound, hargs.sound⟩, hkeywords.sound⟩
      · refine List.forall_mem_cons.mpr ⟨hfunc.ty_of_settled hfuncTy, ?_⟩
        exact List.forall_mem_append.mpr
          ⟨hargs.forall_ty hargTys, hkeywords.forall_ty hkeywordTys⟩
  | call | deferredCoercion | dataPointer | objectTemp | temp => exact hagrees.elim
termination_by structural e

theorem fixed_fixAll {es fixed : List Expr} (hsettled : Settled index table (Expr.nodesAll es))
    (hfix : Expr.rebuildAllM (Expr.fixType table) es = .ok fixed) :
    FixedAll index table es fixed := by
  cases es with
  | nil =>
      cases hfix
      exact ⟨rfl, sound_nil⟩
  | cons e es =>
      obtain ⟨he, hes⟩ := settled_append.mp hsettled
      simp only [Expr.rebuildAllM, bind_eq_ok, pure_eq_ok] at hfix
      obtain ⟨e', hfirst, es', hrest, rfl⟩ := hfix
      have hfirst := fixed_fixTypes he hfirst
      have hrest := fixed_fixAll hes hrest
      refine ⟨?_, sound_append.mpr ⟨hfirst.sound, hrest.sound⟩⟩
      simp only [List.map_cons, hfirst.ty, hrest.types]
termination_by structural es

theorem fixed_fixKeywords {keywords fixed : List (String × Expr)}
    (hsettled : Settled index table (Expr.nodesAll (keywords.map Prod.snd)))
    (hfix : Expr.rebuildKeywordsM (Expr.fixType table) keywords = .ok fixed) :
    FixedAll index table (keywords.map Prod.snd) (fixed.map Prod.snd) := by
  cases keywords with
  | nil =>
      cases hfix
      exact ⟨rfl, sound_nil⟩
  | cons keyword keywords =>
      obtain ⟨name, e⟩ := keyword
      obtain ⟨he, hes⟩ := settled_append.mp hsettled
      simp only [Expr.rebuildKeywordsM, bind_eq_ok, pure_eq_ok] at hfix
      obtain ⟨e', hfirst, keywords', hrest, rfl⟩ := hfix
      have hfirst := fixed_fixTypes he hfirst
      have hrest := fixed_fixKeywords hes hrest
      refine ⟨?_, sound_append.mpr ⟨hfirst.sound, hrest.sound⟩⟩
      simp only [List.map_cons, hfirst.ty, hrest.types]
termination_by structural keywords

theorem fixed_fixPart {part fixed : Option Expr}
    (hsettled : Settled index table (Expr.nodesAll part.toList))
    (hfix : Expr.rebuildPartM (Expr.fixType table) part = .ok fixed) :
    FixedAll index table part.toList fixed.toList := by
  cases part with
  | none =>
      cases hfix
      exact ⟨rfl, sound_nil⟩
  | some e =>
      simp only [Option.toList_some, Expr.nodesAll, List.append_nil] at hsettled
      simp only [Expr.rebuildPartM, bind_eq_ok, pure_eq_ok] at hfix
      obtain ⟨e', hfirst, rfl⟩ := hfix
      have hfirst := fixed_fixTypes hsettled hfirst
      refine ⟨congrArg (· :: []) hfirst.ty, ?_⟩
      simpa only [Option.toList_some, Expr.nodesAll, List.append_nil] using hfirst.sound
termination_by structural part

end

end Inference

/-- Fixing the types of a function rewrites its body and the value it returns after a failure. -/
theorem FunctionDef.exists_typed {table : SymbolTable} {func typed : FunctionDef}
    (htyped : Pass.Succeeds (func.typed table) typed) :
    ∃ body errorReturn, Stmt.fixTypes table func.body = .ok body ∧
      (func.errorReturn = none → errorReturn = none) ∧ typed = { func with body, errorReturn } := by
  simp only [FunctionDef.typed, Pass.succeeds_bind, Pass.succeeds_ofExcept, Pass.succeeds_pure,
    FunctionDef.fixTypes, Inference.bind_eq_ok] at htyped
  obtain ⟨_, ⟨body, hfix, htyped⟩, _, _, rfl⟩ := htyped
  split at htyped
  next hvalue =>
    simp only [Inference.bind_eq_ok, Inference.pure_eq_ok] at htyped
    obtain ⟨_, _, rfl⟩ := htyped
    refine ⟨body, _, hfix, fun hnone => ?_, rfl⟩
    exact absurd (hvalue.symm.trans hnone) (Option.some_ne_none _)
  next =>
    obtain rfl := Inference.pure_eq_ok.mp htyped
    exact ⟨body, _, hfix, id, rfl⟩

end KernelFront
