import KernelFront.Proofs.Answers
import KernelFront.Proofs.Format.Scalars
import KernelFront.Proofs.Inference.Made
import KernelFront.Proofs.Inference.Questions
import KernelFront.Proofs.Inference.Results
import KernelFront.Proofs.Rebuilding

/-! # The integer constants of inference

An integer constant is a literal of the source, a bound or a position that inference makes in the
index type, or an entry of a display that is unpacked. The entries of a display come back from its
type, so for them the types matter, and with the types the answers to all questions. All types that
record nothing but numbers in range are a vocabulary without a limit to nesting.
-/

namespace KernelFront

/-! ## Types that record numbers in range -/

/-- The numbers that a display records are in range. -/
def Letter.InRange : Letter → Prop
  | .display _ (some items) => ∀ s ∈ Constant.scalarsAll items, s.InRange
  | _ => True

namespace Constant

mutual

theorem inRange_letters (value : Constant) (hvalue : ∀ s ∈ value.scalars, s.InRange) :
    ∀ letter ∈ value.letters, letter.InRange := by
  cases value with
  | tuple items =>
      simp only [letters, List.forall_mem_cons]
      exact ⟨hvalue, trivial, inRange_lettersAll items hvalue⟩
  | _ => simp [letters, Letter.InRange]
termination_by structural value

theorem inRange_lettersAll (items : List Constant) (hitems : ∀ s ∈ scalarsAll items, s.InRange) :
    ∀ letter ∈ lettersAll items, letter.InRange := by
  cases items with
  | nil => exact List.forall_mem_nil _
  | cons item items =>
      simp only [scalarsAll, List.forall_mem_append] at hitems
      simp only [lettersAll, List.forall_mem_append]
      exact ⟨inRange_letters item hitems.1, inRange_lettersAll items hitems.2⟩
termination_by structural items

end

end Constant

theorem Ty.inRange_letters (ty : Ty) (hty : ∀ s ∈ ty.scalars, s.InRange) :
    ∀ letter ∈ ty.letters, letter.InRange := by
  cases ty with
  | pointer base | dtype base => exact inRange_letters base hty
  | array base _ | carray base _ => exact inRange_letters base (List.forall_mem_cons.mp hty).2
  | tuple size value | list size value =>
      cases value with
      | none => simp [letters, Constant.lettersAll, Letter.InRange]
      | some items =>
          have hitems : ∀ s ∈ Constant.scalarsAll items, s.InRange := by
            simpa [recordedScalars] using (List.forall_mem_cons.mp hty).2
          simp only [letters, List.forall_mem_cons]
          exact ⟨hitems, trivial, Constant.inRange_lettersAll items hitems⟩
  | _ => simp [letters, Letter.InRange]
termination_by structural ty

namespace Expr

/-- The numbers of a source expression are in range, its parts apart: those of a literal, and the
number of the elements of a display, which is written out when the display is packed. -/
structure InRange (e : Expr) : Prop where
  scalars : ∀ s ∈ e.formScalars, s.InRange
  elements : (Scalar.int e.elements.length).InRange

instance : DecidablePred InRange := fun e =>
  decidable_of_iff ((∀ s ∈ e.formScalars, s.InRange) ∧ (Scalar.int e.elements.length).InRange)
    ⟨fun h => ⟨h.1, h.2⟩, fun h => ⟨h.scalars, h.elements⟩⟩

/-- What an expression of the source stands for is made of its literals. -/
theorem inRange_folded {e : Expr} {value : Constant} (he : ∀ node ∈ e.nodes, node.InRange)
    (hfolded : e.folded? = some value) : ∀ s ∈ value.scalars, s.InRange := by
  induction e using induct generalizing value with
  | hstep e ih =>
      have hself := he e e.mem_nodes_self
      have hparts {part : Expr} (hpart : part ∈ e.children) {value : Constant}
          (hfolded : part.folded? = some value) : ∀ s ∈ value.scalars, s.InRange :=
        ih part hpart (fun node hnode => he node (mem_nodes_of_part hpart hnode)) hfolded
      cases e with
      | const note value =>
          cases hfolded
          exact hself.scalars
      | tuple note elts access =>
          obtain ⟨items, hitems, rfl⟩ := Option.map_eq_some_iff.mp hfolded
          have hitems : ∀ item ∈ items, ∀ s ∈ item.scalars, s.InRange :=
            forall_of_forall₂ (fun elt helt _ => hparts helt) (forall₂_of_foldedAll? hitems)
          simpa only [Constant.scalars, Constant.scalarsAll_eq, List.forall_mem_flatMap] using hitems
      | call note func args keywords =>
          rw [folded?] at hfolded
          split at hfolded
          next hargs =>
            cases hfolded
            have hvalues : ∀ arg ∈ [value], ∀ s ∈ arg.scalars, s.InRange :=
              forall_of_forall₂ (fun arg harg _ hfolded =>
                hparts (by simp [children, harg]) hfolded) (forall₂_of_foldedAll? hargs)
            exact hvalues value List.mem_cons_self
          · cases hfolded
      | name | ellipsis =>
          cases hfolded
          exact List.forall_mem_nil _
      | _ => cases hfolded

end Expr

namespace Inference

/-- The numbers in the types that the setting supplies are in range. -/
structure Setting.InRange (setting : Setting) : Prop where
  index : ∀ s ∈ setting.options.indexType.scalars, s.InRange
  int : ∀ s ∈ setting.options.intBuiltin.scalars, s.InRange
  float : ∀ s ∈ setting.options.floatBuiltin.scalars, s.InRange
  native : ∀ {name entry}, setting.names.lookup name = .native entry →
    ∀ s ∈ entry.signature.scalars, s.InRange
  dtype : ∀ {owner attr ty}, setting.names.attribute? owner attr = some (.dtype ty) →
    ∀ s ∈ ty.scalars, s.InRange

end Inference

/-- The numbers in the type of an entry point are in range. -/
def Resolution.InRange : Resolution → Prop
  | .native entry => ∀ s ∈ entry.signature.scalars, s.InRange
  | .host => True

namespace Vocabulary

open Inference

variable {setting : Setting}

/-- All types that record numbers in range only, however deep they are nested. -/
def inRange : Vocabulary := ⟨{letter | letter.InRange}, ⊤⟩

theorem spells_inRange {ty : Ty} (hty : ∀ s ∈ ty.scalars, s.InRange) : inRange.Spells ty :=
  ⟨ty.inRange_letters hty, le_top⟩

theorem spells_ret {signature : FunctionType} (hsignature : ∀ s ∈ signature.scalars, s.InRange) :
    inRange.Spells signature.ret :=
  spells_inRange (List.forall_mem_append.mp hsignature).1

theorem inRange_item {ty : Ty} {items : List Constant} (hty : inRange.Spells ty)
    (hitems : ty.constantElements = some items) :
    ∀ item ∈ items, ∀ s ∈ item.scalars, s.InRange := by
  have hletter : ∃ size, Letter.display size (some items) ∈ ty.letters := by
    cases ty <;> cases hitems <;> exact ⟨_, List.mem_cons_self⟩
  obtain ⟨size, hletter⟩ := hletter
  have hall : ∀ s ∈ Constant.scalarsAll items, s.InRange := hty.letters _ hletter
  rw [Constant.scalarsAll_eq] at hall
  exact List.forall_mem_flatMap.mp hall

theorem fits_inRange (hsetting : setting.InRange) : inRange.Fits setting where
  index := spells_inRange hsetting.index
  int := spells_inRange hsetting.int
  float := spells_inRange hsetting.float
  shape := spells_inRange (by decide)
  rank := spells_inRange (by decide)
  dtype hattr := spells_inRange fun s hs => hsetting.dtype hattr s hs

theorem admits_inRange (hsetting : setting.InRange) {e : Expr}
    (he : ∀ node ∈ e.nodes, node.InRange) : inRange.Admits setting.names e := by
  have hatom {ty : Ty} (hletters : ∀ letter ∈ ty.letters, letter.InRange) : inRange.Spells ty :=
    ⟨hletters, le_top⟩
  refine ⟨?_, fun value hvalue => hatom ?_, fun attr _ name isNumpy _ => ?_, le_top⟩
  · cases e with
    | name note id access =>
        simp only [Expr.mentions]
        split
        case h_3 entry hentry =>
          have hnative := hsetting.native hentry
          simpa using ⟨hatom (by simp [Ty.letters, Letter.InRange]), spells_ret hnative⟩
        all_goals exact List.forall_mem_singleton.mpr (spells_inRange (List.forall_mem_nil _))
    | tuple | list =>
        refine List.forall_mem_singleton.mpr (hatom ?_)
        simp [Ty.letters, Constant.lettersAll, Letter.InRange]
    | _ => exact List.forall_mem_nil _
  · rw [Ty.letters_ofConstant]
    exact value.inRange_letters (Expr.inRange_folded he hvalue)
  · exact spells_inRange (List.forall_mem_nil _)

theorem covers_inRange (hsetting : setting.InRange) {e : Expr}
    (he : ∀ node ∈ e.nodes, node.InRange) : inRange.Covers setting.names e := by
  induction e using Expr.induct with
  | hstep e ih =>
      have hadmits := admits_inRange hsetting he
      unfold Covers
      rw [Expr.nodes_eq]
      refine List.forall_mem_cons.mpr ⟨hadmits, fun node hnode => ?_⟩
      obtain ⟨part, hpart, hnode⟩ := Expr.mem_nodesAll.mp hnode
      exact ih part hpart (fun inner hinner => he inner (Expr.mem_nodes_of_part hpart hinner)) node
        hnode

end Vocabulary

/-! ## Constants and their types -/

/-- An integer constant fits the type that it is given, and the number of the elements of a tuple
the type in which it is written out. -/
def Expr.Carries (fits : Ty → Int → Prop) (tyOf : Expr → Option Ty) (e : Expr) : Prop :=
  match e with
  | .const _ (.int value) => ∃ ty, tyOf e = some ty ∧ fits ty value
  | .tuple _ elts _ => fits .intp elts.length
  | _ => True

namespace Inference

variable {fits : Ty → Int → Prop} {setting : Setting} {span : Span}

/-- What integer constants are to fit: literals their type, the bounds of a range the index type,
and the flags of a call that prints their own. -/
structure Allows (fits : Ty → Int → Prop) (index : Ty) : Prop where
  literal : ∀ {value}, (Scalar.int value).InRange → fits .int64 value
  zero : fits index 0
  one : fits index 1
  flags : fits .int32 Host.printRaw

/-- The integer constants among some visited expressions fit their types. -/
abbrev Carrying (fits : Ty → Int → Prop) (nodes : List Expr) : Prop :=
  Throughout (Expr.Carries fits Expr.ownTy?) nodes

theorem carries_made {width : Nat} (hfits : Allows fits setting.options.indexType)
    (hwidth : (Scalar.int width).InRange) (node : Expr)
    (hmade : IsMade setting.options.indexType width node) : node.Carries fits Expr.ownTy? := by
  cases node with
  | const note value =>
      have hown {var : Variable} (hbinding : note.binding = some (.value var)) :
          (Expr.const note value).ownTy? = var.ty := by
        rw [Expr.ownTy?, Expr.binding, Expr.note, hbinding]
      obtain ⟨text, rfl⟩ | ⟨rfl | rfl, hbinding⟩ := hmade
      · trivial
      · exact ⟨_, hown hbinding, hfits.zero⟩
      · exact ⟨_, hown hbinding, hfits.one⟩
  | tuple note elts access =>
      obtain rfl : elts.length = width := hmade
      exact hfits.literal hwidth
  | _ => trivial

theorem carrying_literal (hfits : Allows fits setting.options.indexType) {value : Constant}
    (hvalue : ∀ s ∈ value.scalars, s.InRange) (span : Span) :
    Carrying fits (literal value span).nodes := by
  refine List.forall_mem_singleton.mpr ?_
  cases value with
  | int value => exact ⟨.int64, rfl, hfits.literal (hvalue _ List.mem_cons_self)⟩
  | _ => trivial

theorem carrying_inferAll {es results : List Expr} {before after : Scope}
    (heach : ∀ e ∈ es, ∀ {before result after},
      Pass.Reaches (inferExpr setting e) before result after → Carrying fits result.nodes)
    (hreach : Pass.Reaches (inferAll setting es) before results after) :
    Carrying fits (Expr.nodesAll results) := by
  induction es generalizing before results with
  | nil =>
      simp only [inferAll, Pass.reaches_pure] at hreach
      obtain ⟨rfl, rfl⟩ := hreach
      exact throughout_nil
  | cons e es ih =>
      simp only [inferAll, Pass.reaches_bind, Pass.reaches_pure] at hreach
      obtain ⟨result, _, he, results, _, hes, rfl, rfl⟩ := hreach
      obtain ⟨hself, hrest⟩ := List.forall_mem_cons.mp heach
      exact throughout_append.mpr ⟨hself he, ih hrest hes⟩

/-- Visiting an expression adds no other constants than bounds and texts to its literals. -/
theorem carrying_inferExpr (hfits : Allows fits setting.options.indexType) {e result : Expr}
    (he : ∀ node ∈ e.nodes, node.InRange) {before after : Scope}
    (hreach : Pass.Reaches (inferExpr setting e) before result after) :
    Carrying fits result.nodes := by
  induction e using Expr.induct generalizing before result after with
  | hstep e ih =>
      have hself := he e e.mem_nodes_self
      cases hname : e.asName with
      | some name =>
          obtain ⟨note, access, rfl⟩ := Expr.eq_name_of_asName hname
          simp only [inferExpr] at hreach
          obtain ⟨id, rfl, -⟩ := reaches_visitName hreach
          exact List.forall_mem_singleton.mpr trivial
      | none =>
          by_cases hconst : ∃ note value, e = .const note value
          · obtain ⟨note, value, rfl⟩ := hconst
            simp only [inferExpr, Pass.reaches_pure] at hreach
            obtain ⟨rfl, rfl⟩ := hreach
            exact carrying_literal hfits hself.scalars _
          · push Not at hconst
            obtain ⟨parts, hparts, hmade⟩ := made_of_parts hname hconst hreach
            refine hmade _ (carries_made hfits hself.elements) (carrying_inferAll ?_ hparts)
            intro part hpart before result after hreach
            exact ih part hpart (fun node hnode => he node (Expr.mem_nodes_of_part hpart hnode))
              hreach

/-! ## Statements -/

/-- While the types that are asked for and answered record numbers in range, so do all bindings, and
what becomes of some statements carries constants that fit. -/
abbrev Carries {α : Type} (fits : Ty → Int → Prop) (nodes : α → List Expr) (pass : Infer α) : Prop :=
  Vocabulary.inRange.Asks (fun value => Carrying fits (nodes value)) pass

section Statements

variable {target value : Expr} {targets elements : List Expr}

/-- Visiting an expression whose numbers are in range. -/
theorem carries_visit (hsetting : setting.InRange) (hfits : Allows fits setting.options.indexType)
    {e : Expr} (he : ∀ node ∈ e.nodes, node.InRange) :
    Vocabulary.inRange.Asks
      (fun result => Vocabulary.inRange.Visits e result ∧ Carrying fits result.nodes)
      (inferExpr setting e) :=
  Pass.keeps_and
    (Vocabulary.asks_inferExpr (Vocabulary.fits_inRange hsetting)
      (Vocabulary.covers_inRange hsetting he))
    fun _ _ _ => carrying_inferExpr hfits he

theorem carries_typeStore (htarget : Carrying fits target.nodes)
    (hvalue : Vocabulary.inRange.Types value) (hconstants : Carrying fits value.nodes) :
    Carries fits (fun stmt => Stmt.nodesBody [stmt]) (typeStore target value span) :=
  Pass.keeps_mono (fun _ => And.right) (Pass.keeps_and (Vocabulary.asks_typeStore hvalue)
    fun _ _ _ => throughout_typeStore (fun _ _ _ => trivial) htarget hconstants)

/-- Only as many elements are stored as there are targets. -/
theorem carries_storeAll (hsetting : setting.InRange)
    (hfits : Allows fits setting.options.indexType)
    (htargets : ∀ target ∈ targets, ∀ node ∈ target.nodes, node.InRange)
    (helements : ∀ element ∈ elements, Vocabulary.inRange.Types element)
    (hconstants : Carrying fits (Expr.nodesAll (elements.take targets.length))) :
    Carries fits Stmt.nodesBody (storeAll setting span targets elements) := by
  induction targets generalizing elements with
  | nil =>
      simp only [storeAll]
      exact Pass.keeps_pure throughout_nil
  | cons target targets ih =>
      cases elements with
      | nil =>
          simp only [storeAll]
          exact Pass.keeps_pure throughout_nil
      | cons element elements =>
          obtain ⟨htarget, htargets⟩ := List.forall_mem_cons.mp htargets
          obtain ⟨helement, helements⟩ := List.forall_mem_cons.mp helements
          obtain ⟨hconstant, hconstants⟩ := throughout_append.mp hconstants
          simp only [storeAll]
          refine Pass.keeps_bind (carries_visit hsetting hfits htarget) fun target' htarget' => ?_
          refine Pass.keeps_bind (carries_typeStore htarget'.2 helement hconstant)
            fun stmt hstmt => ?_
          refine Pass.keeps_bind (ih htargets helements hconstants) fun stmts hstmts => ?_
          refine Pass.keeps_pure ?_
          rw [← List.singleton_append, Stmt.nodesBody_append]
          exact throughout_append.mpr ⟨hstmt, hstmts⟩

/-- The elements of an array are at positions below the number of targets, and what a type records
is written out as literals. -/
theorem carrying_unpackedElements {source : Expr} {table : SymbolTable} {size : Nat}
    (hfits : Allows fits setting.options.indexType)
    (hpositions : ∀ position < size, fits setting.options.indexType position)
    (htable : Vocabulary.inRange.Tabulates table)
    (hvalue : Vocabulary.inRange.Visits source value) (hconstants : Carrying fits value.nodes)
    (hrule : unpackedElements setting value table = .ok elements) :
    Carrying fits (Expr.nodesAll (elements.take size)) := by
  have htake {elements : List Expr} (hall : Carrying fits (Expr.nodesAll elements)) :
      Carrying fits (Expr.nodesAll (elements.take size)) :=
    throughout_nodesAll.mpr fun e he => throughout_nodesAll.mp hall e (List.mem_of_mem_take he)
  simp only [unpackedElements, bind_eq_ok, typeOf_eq_ok] at hrule
  obtain ⟨ty, hty, hrule⟩ := hrule
  have hty := hvalue.types htable hty
  split at hrule
  · cases hrule
    rw [← List.map_take, List.take_range]
    refine throughout_nodesAll.mpr (List.forall_mem_map.mpr fun position hposition => ?_)
    have hless := (List.mem_range.mp hposition).trans_le (Nat.min_le_left _ _)
    refine throughout_node trivial ?_
    simp only [Expr.children, Expr.nodesAll, List.append_nil, throughout_append]
    exact ⟨hconstants, List.forall_mem_singleton.mpr ⟨_, rfl, hpositions position hless⟩⟩
  · cases hrule
    exact htake hconstants.parts
  · cases hrule
    exact htake hconstants.parts
  · split at hrule
    next items hitems =>
      cases hrule
      refine htake (throughout_nodesAll.mpr (List.forall_mem_map.mpr fun item hitem => ?_))
      exact carrying_literal hfits (Vocabulary.inRange_item hty hitems item hitem) _
    next => cases hrule

theorem carries_unpack {source : Expr} (hsetting : setting.InRange)
    (hfits : Allows fits setting.options.indexType)
    (hpositions : ∀ position < targets.length, fits setting.options.indexType position)
    (htargets : ∀ target ∈ targets, ∀ node ∈ target.nodes, node.InRange)
    (hvalue : Vocabulary.inRange.Visits source value) (hconstants : Carrying fits value.nodes) :
    Carries fits Stmt.nodesBody (unpack setting span targets value) := by
  refine Pass.keeps_bind (Vocabulary.asks_apply fun _ _ size _ => trivial) fun size _ => ?_
  split
  · exact Pass.keeps_throw
  · have helements : Vocabulary.inRange.Asks
        (fun elements => (∀ element ∈ elements, Vocabulary.inRange.Types element) ∧
          Carrying fits (Expr.nodesAll (elements.take targets.length)))
        (apply (unpackedElements setting value)) :=
      Vocabulary.asks_apply fun table htable elements hrule =>
        ⟨Vocabulary.types_unpackedElements (Vocabulary.fits_inRange hsetting) htable hvalue hrule,
          carrying_unpackedElements hfits hpositions htable hvalue hconstants hrule⟩
    exact Pass.keeps_bind helements fun elements helements =>
      carries_storeAll hsetting hfits htargets helements.1 helements.2

theorem carries_inferAssign {source : Expr} (hsetting : setting.InRange)
    (hfits : Allows fits setting.options.indexType)
    (hpositions : ∀ position < (Stmt.unpackedTargets targets).length,
      fits setting.options.indexType position)
    (htargets : ∀ target ∈ targets, ∀ node ∈ target.nodes, node.InRange)
    (hvalue : Vocabulary.inRange.Visits source value) (hconstants : Carrying fits value.nodes) :
    Carries fits Stmt.nodesBody (inferAssign setting span targets value) := by
  have hparts {e : Expr} (he : ∀ node ∈ e.nodes, node.InRange) :
      ∀ part ∈ e.children, ∀ node ∈ part.nodes, node.InRange :=
    fun part hpart node hnode => he node (Expr.mem_nodes_of_part hpart hnode)
  unfold inferAssign
  split
  · exact carries_unpack hsetting hfits hpositions (hparts (htargets _ List.mem_cons_self)) hvalue
      hconstants
  · exact carries_unpack hsetting hfits hpositions (hparts (htargets _ List.mem_cons_self)) hvalue
      hconstants
  · refine carries_storeAll hsetting hfits htargets (List.forall_mem_singleton.mpr hvalue.types) ?_
    exact throughout_nodesAll.mpr (List.forall_mem_singleton.mpr hconstants)
  next htuple hlist _ =>
    unfold Stmt.unpackedTargets at hpositions
    split at hpositions
    · exact absurd rfl (htuple _ _ _)
    · exact absurd rfl (hlist _ _ _)
    · exact carries_unpack hsetting hfits hpositions htargets hvalue hconstants

theorem carries_inferPart (hsetting : setting.InRange)
    (hfits : Allows fits setting.options.indexType) {part : Option Expr}
    (hpart : ∀ e ∈ part.toList, ∀ node ∈ e.nodes, node.InRange) :
    Vocabulary.inRange.Asks (fun result : Option Expr =>
        (∀ e, result = some e → Vocabulary.inRange.Types e) ∧
          Carrying fits (Expr.nodesAll result.toList))
      (inferPart setting part) := by
  cases part with
  | none => exact Pass.keeps_pure ⟨nofun, throughout_nil⟩
  | some e =>
      refine Pass.keeps_bind (carries_visit hsetting hfits (hpart e (List.mem_singleton_self e)))
        fun result hresult => Pass.keeps_pure ⟨?_, ?_⟩
      · rintro _ ⟨⟩
        exact hresult.1.types
      · exact throughout_nodesAll.mpr (List.forall_mem_singleton.mpr hresult.2)

theorem carries_inferReturn {value : Option Expr}
    (hvalue : ∀ e, value = some e → Vocabulary.inRange.Types e)
    (hconstants : Carrying fits (Expr.nodesAll value.toList)) :
    Carries fits (fun stmt => Stmt.nodesBody [stmt]) (inferReturn span value) :=
  Pass.keeps_mono (fun _ => And.right) (Pass.keeps_and (Vocabulary.asks_inferReturn hvalue)
    fun _ _ _ => throughout_inferReturn (fun _ _ _ => trivial) hconstants)

theorem carries_converted (ty : Ty) {e : Expr} (he : Carrying fits e.nodes) :
    Carries fits Expr.nodes (apply fun table => .ok (e.convert table ty)) := by
  refine Vocabulary.asks_apply fun table _ result hrule => ?_
  cases hrule
  exact throughout_converted (fun _ _ _ => trivial) ty he

theorem carries_inferTest (hsetting : setting.InRange)
    (hfits : Allows fits setting.options.indexType) {test : Expr}
    (htest : ∀ node ∈ test.nodes, node.InRange) :
    Carries fits Expr.nodes (inferTest setting test) :=
  Pass.keeps_bind (carries_visit hsetting hfits htest) fun _ hvisited =>
    carries_converted .bool hvisited.2

theorem carries_inferPrinted (hsetting : setting.InRange)
    (hfits : Allows fits setting.options.indexType) {values : List Expr}
    (hvalues : ∀ value ∈ values, ∀ node ∈ value.nodes, node.InRange) :
    Carries fits Expr.nodesAll (inferPrinted setting values) := by
  induction values with
  | nil => exact Pass.keeps_pure throughout_nil
  | cons value values ih =>
      obtain ⟨hvalue, hvalues⟩ := List.forall_mem_cons.mp hvalues
      refine Pass.keeps_bind (carries_visit hsetting hfits hvalue) fun visited hvisited => ?_
      refine Pass.keeps_bind (carries_converted .object hvisited.2) fun boxed hboxed => ?_
      refine Pass.keeps_bind (ih hvalues) fun rest hrest => ?_
      exact Pass.keeps_pure (throughout_append.mpr ⟨hboxed, hrest⟩)

theorem inRange_withAccess {e : Expr} (he : ∀ node ∈ e.nodes, node.InRange) (access : Access) :
    ∀ node ∈ (e.withAccess access).nodes, node.InRange := by
  have hsame : (e.withAccess access).formScalars = e.formScalars ∧
      (e.withAccess access).elements = e.elements := by
    cases e <;> exact ⟨rfl, rfl⟩
  rw [Expr.nodes_eq] at he ⊢
  obtain ⟨⟨hscalars, helements⟩, hparts⟩ := List.forall_mem_cons.mp he
  rw [Expr.children_withAccess]
  exact List.forall_mem_cons.mpr ⟨⟨hsame.1 ▸ hscalars, hsame.2 ▸ helements⟩, hparts⟩

/-- A statement of the source, its bodies apart: its numbers are in range, and so are positions in
what it unpacks. -/
structure Supplies (fits : Ty → Int → Prop) (index : Ty) (stmt : Stmt) : Prop where
  nodes : ∀ e ∈ stmt.exprs, ∀ node ∈ e.nodes, node.InRange
  positions : ∀ position < stmt.places.length, fits index position
  uncounted : stmt.Uncounted

mutual

/-- Visiting a statement. -/
theorem carries_inferStmt {stmt : Stmt} (hsetting : setting.InRange)
    (hfits : Allows fits setting.options.indexType)
    (hstmt : ∀ inner ∈ stmt.nested, Supplies fits setting.options.indexType inner) :
    Carries fits Stmt.nodesBody (inferStmt setting stmt) := by
  cases stmt with
  | assign span targets value =>
      obtain ⟨hnodes, hpositions, -⟩ := hstmt _ List.mem_cons_self
      obtain ⟨htargets, hvalue⟩ := List.forall_mem_append.mp hnodes
      simp only [inferStmt]
      refine Pass.keeps_bind (carries_visit hsetting hfits (hvalue value List.mem_cons_self))
        fun visited hvisited => ?_
      exact carries_inferAssign hsetting hfits hpositions htargets hvisited.1 hvisited.2
  | augAssign span target op value =>
      obtain ⟨hnodes, -, -⟩ := hstmt _ List.mem_cons_self
      have htarget := hnodes target List.mem_cons_self
      have hvalue := hnodes value (by simp [Stmt.exprs])
      have hop : ∀ node ∈ (Expr.binOp { span } (target.withAccess .load) op value).nodes,
          node.InRange := by
        rw [Expr.nodes]
        refine List.forall_mem_cons.mpr ⟨⟨nofun, (by decide : (Scalar.int 0).InRange)⟩, ?_⟩
        exact List.forall_mem_append.mpr ⟨inRange_withAccess htarget .load, hvalue⟩
      simp only [inferStmt]
      refine Pass.keeps_bind (carries_visit hsetting hfits hop) fun visited hvisited => ?_
      exact carries_storeAll hsetting hfits (List.forall_mem_singleton.mpr htarget)
        (List.forall_mem_singleton.mpr hvisited.1.types)
        (throughout_nodesAll.mpr (List.forall_mem_singleton.mpr hvisited.2))
  | forIn span target iter body orelse index =>
      obtain ⟨hnodes, -, hindex⟩ := hstmt _ List.mem_cons_self
      obtain rfl : index = none := hindex
      have hbody := (List.forall_mem_append.mp (List.forall_mem_cons.mp hstmt).2).1
      simp only [inferStmt]
      split
      · exact Pass.keeps_throw
      · split
        · exact Pass.keeps_throw
        · refine Pass.keeps_bind (carries_visit hsetting hfits (hnodes iter (by simp [Stmt.exprs])))
            fun iter' hiter => ?_
          have helement : Vocabulary.inRange.Asks Vocabulary.inRange.Spells
              (apply (elementType setting iter')) :=
            Vocabulary.asks_apply fun table htable element =>
              Vocabulary.spells_elementType (Vocabulary.fits_inRange hsetting) htable hiter.1.types
          refine Pass.keeps_bind helement fun element helement => ?_
          refine Pass.keeps_bind (carries_visit hsetting hfits (hnodes target List.mem_cons_self))
            fun target' htarget => ?_
          refine Pass.keeps_bind (Vocabulary.asks_bindElement helement) fun _ _ => ?_
          refine Pass.keeps_bind (carries_inferBody hsetting hfits hbody) fun body' hbody' => ?_
          refine Pass.keeps_pure ?_
          simp only [Stmt.nodesBody, Stmt.nestedBody, Stmt.nested, List.append_nil,
            List.flatMap_cons, Stmt.nodes, Stmt.exprs, Option.toList_none, Expr.nodesAll,
            throughout_append]
          exact ⟨⟨htarget.2, hiter.2⟩, hbody'⟩
  | whileLoop span test body orelse =>
      obtain ⟨hnodes, -, -⟩ := hstmt _ List.mem_cons_self
      have hbody := (List.forall_mem_append.mp (List.forall_mem_cons.mp hstmt).2).1
      simp only [inferStmt]
      split
      · exact Pass.keeps_throw
      · refine Pass.keeps_bind (carries_inferTest hsetting hfits (hnodes test List.mem_cons_self))
          fun test' htest => ?_
        refine Pass.keeps_bind (carries_inferBody hsetting hfits hbody) fun body' hbody' => ?_
        refine Pass.keeps_pure ?_
        simp only [Stmt.nodesBody, Stmt.nestedBody, Stmt.nested, List.append_nil,
          List.flatMap_cons, Stmt.nodes, Stmt.exprs, Expr.nodesAll, throughout_append]
        exact ⟨htest, hbody'⟩
  | branch span test body orelse =>
      obtain ⟨hnodes, -, -⟩ := hstmt _ List.mem_cons_self
      obtain ⟨hbody, horelse⟩ := List.forall_mem_append.mp (List.forall_mem_cons.mp hstmt).2
      simp only [inferStmt]
      refine Pass.keeps_bind (carries_inferTest hsetting hfits (hnodes test List.mem_cons_self))
        fun test' htest => ?_
      refine Pass.keeps_bind (carries_inferBody hsetting hfits hbody) fun body' hbody' => ?_
      refine Pass.keeps_bind (carries_inferBody hsetting hfits horelse) fun orelse' horelse' => ?_
      refine Pass.keeps_pure ?_
      simp only [Stmt.nodesBody, Stmt.nestedBody, Stmt.nested, List.append_nil, List.flatMap_cons,
        List.flatMap_append, Stmt.nodes, Stmt.exprs, Expr.nodesAll, throughout_append]
      exact ⟨htest, hbody', horelse'⟩
  | ret span value =>
      obtain ⟨hnodes, -, -⟩ := hstmt _ List.mem_cons_self
      simp only [inferStmt]
      refine Pass.keeps_bind (carries_inferPart hsetting hfits hnodes) fun value' hvalue => ?_
      refine Pass.keeps_bind (carries_inferReturn hvalue.1 hvalue.2) fun stmt hstmt => ?_
      exact Pass.keeps_pure hstmt
  | expr span value =>
      obtain ⟨hnodes, -, -⟩ := hstmt _ List.mem_cons_self
      simp only [inferStmt]
      refine Pass.keeps_bind (carries_visit hsetting hfits (hnodes value List.mem_cons_self))
        fun value' hvalue => ?_
      refine Pass.keeps_pure ?_
      simpa [Stmt.nodesBody, Stmt.nestedBody, Stmt.nested, Stmt.nodes, Stmt.exprs, Expr.nodesAll]
        using hvalue.2
  | print span values dest newline =>
      obtain ⟨hnodes, -, -⟩ := hstmt _ List.mem_cons_self
      obtain ⟨hdest, hvalues⟩ := List.forall_mem_append.mp hnodes
      simp only [inferStmt]
      refine Pass.keeps_bind (carries_inferPrinted hsetting hfits hvalues) fun values' hvalues' => ?_
      refine Pass.keeps_bind (carries_inferPart hsetting hfits hdest) fun dest' hdest' => ?_
      refine Pass.keeps_pure ?_
      simpa [Stmt.nodesBody, Stmt.nestedBody, Stmt.nested, Stmt.nodes, Stmt.exprs]
        using ⟨hdest'.2, hvalues'⟩
  | global => exact Pass.keeps_throw
  | _ => exact Pass.keeps_pure throughout_nil
termination_by structural stmt

/-- Visiting a body. -/
theorem carries_inferBody {body : List Stmt} (hsetting : setting.InRange)
    (hfits : Allows fits setting.options.indexType)
    (hbody : ∀ inner ∈ Stmt.nestedBody body, Supplies fits setting.options.indexType inner) :
    Carries fits Stmt.nodesBody (inferBody setting body) := by
  cases body with
  | nil => exact Pass.keeps_pure throughout_nil
  | cons stmt body =>
      obtain ⟨hstmt, hbody⟩ := List.forall_mem_append.mp hbody
      simp only [inferBody]
      refine Pass.keeps_bind (carries_inferStmt hsetting hfits hstmt) fun stmts hstmts => ?_
      refine Pass.keeps_bind (carries_inferBody hsetting hfits hbody) fun rest hrest => ?_
      refine Pass.keeps_pure ?_
      rw [Stmt.nodesBody_append]
      exact throughout_append.mpr ⟨hstmts, hrest⟩
termination_by structural body

end

end Statements

/-- The body of an inferred function, when only types with numbers in range come into it. -/
theorem carrying_inferFunction {func : FunctionDef} {signature : Signature} {inferred : Inferred}
    (hsetting : setting.InRange) (hfits : Allows fits setting.options.indexType)
    (hfunc : ∀ stmt ∈ func.statements, Supplies fits setting.options.indexType stmt)
    (hargs : ∀ ty ∈ signature.args, ∀ s ∈ ty.scalars, s.InRange)
    (hinfer : Pass.SucceedsWith Resolution.InRange (inferFunction setting func signature)
      inferred) : Carrying fits inferred.func.nodes := by
  have hanswer (answer : Resolution) (hanswer : answer.InRange) :
      Vocabulary.inRange.contract.answer answer := by
    cases answer with
    | native entry => exact Vocabulary.spells_ret hanswer
    | host => trivial
  unfold inferFunction at hinfer
  split at hinfer
  · exact absurd hinfer.succeeds Pass.not_succeeds_throw
  · obtain ⟨⟨⟨body, ret⟩, scope⟩, hrun, hrest⟩ := Pass.exists_of_succeedsWith_bind hinfer
    obtain ⟨⟨visited, middle⟩, hbody, hsettle⟩ := Pass.exists_of_succeedsWith_bind hrun
    have hsettle : Pass.Reaches (do
        let ret ← settleResult signature.ret func.span
        pure (visited, ret)) middle (body, ret) scope := hsettle.succeeds
    simp only [Pass.reaches_bind, Pass.reaches_pure, Prod.mk.injEq] at hsettle
    obtain ⟨_, _, -, ⟨rfl, rfl⟩, rfl⟩ := hsettle
    have hrest := hrest.succeeds
    simp only [Pass.succeeds_bind, Pass.succeeds_pure] at hrest
    obtain ⟨_, -, rfl⟩ := hrest
    have hscope : Vocabulary.inRange.Scopes (Scope.ofFunction func signature.args) :=
      Vocabulary.scopes_ofFunction fun ty hty => Vocabulary.spells_inRange (hargs ty hty)
    exact ((carries_inferBody hsetting hfits hfunc _ hscope).good (hbody.mono hanswer)).2

end Inference

end KernelFront
