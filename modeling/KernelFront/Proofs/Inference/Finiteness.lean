import KernelFront.Proofs.Inference.Questions
import KernelFront.Table

/-! # Finite vocabularies

Finitely many functions and types have a finite vocabulary, provided that a namespace names only
finitely many element types. With a bound on the number of axes there are then finitely many lists
of arguments that the functions can ask for.
-/

namespace KernelFront

/-- A table has finitely many entries. -/
theorem Table.finite_graph {κ ν : Type} [DecidableEq κ] (table : Table κ ν) :
    {entry : κ × ν | table.get? entry.1 = some entry.2}.Finite := by
  refine (List.finite_toSet table.entries).subset ?_
  rintro ⟨key, value⟩ hvalue
  obtain ⟨entry, hfound, rfl⟩ := Option.map_eq_some_iff.mp hvalue
  have hkey : entry.1 = key := by simpa using List.find?_some hfound
  exact hkey ▸ List.mem_of_find?_eq_some hfound

/-- The element types that the attributes of modules name. -/
def Host.Namespace.dtypes (names : Host.Namespace) : Set Ty :=
  {ty | ∃ owner attr, names.attribute? owner attr = some (.dtype ty)}

/-- The types that a source expression brings in, its parts apart. -/
def Expr.supplies (names : Host.Namespace) (e : Expr) : List Ty :=
  e.mentions names ++ (e.folded?.map Ty.ofConstant).toList

/-- The letter of an attribute of a module, made of the letter of the module. -/
def Letter.qualified (attr : String) : Letter → Letter
  | .atom (.module name isNumpy) => .atom (.moduleAttribute name attr isNumpy)
  | letter => letter

namespace Vocabulary

open Inference

/-- Finitely many expressions and types have a finite vocabulary. -/
theorem exists_admits (names : Host.Namespace) {types : Set Ty} {nodes : Set Expr}
    (htypes : types.Finite) (hnodes : nodes.Finite) (size : Nat) :
    ∃ vocabulary : Vocabulary, vocabulary.IsFinite ∧ size ≤ vocabulary.bound ∧
      (∀ ty ∈ types, vocabulary.Spells ty) ∧ ∀ node ∈ nodes, vocabulary.Admits names node := by
  let base := types ∪ ⋃ node ∈ nodes, {ty | ty ∈ node.supplies names}
  have hbase : base.Finite := htypes.union (hnodes.biUnion fun _ _ => List.finite_toSet _)
  let own := ⋃ ty ∈ base, {letter | letter ∈ ty.letters}
  have hown : own.Finite := hbase.biUnion fun _ _ => List.finite_toSet _
  let attrs := {attr | some attr ∈ Expr.attr? '' nodes}
  have hattrs : attrs.Finite := (hnodes.image Expr.attr?).preimage (Option.some_injective _).injOn
  obtain ⟨depth, hdepth⟩ := (hbase.image Ty.depth).bddAbove
  obtain ⟨arity, harity⟩ := (hnodes.image Expr.arity).bddAbove
  let vocabulary : Vocabulary :=
    ⟨own ∪ Set.image2 Letter.qualified attrs own, (max size (max depth arity) : Nat)⟩
  have hle {least : Nat} (hleast : least ≤ max size (max depth arity)) :
      (least : ℕ∞) ≤ vocabulary.bound := Nat.cast_le.mpr hleast
  have hspells {ty : Ty} (hty : ty ∈ base) : vocabulary.Spells ty := by
    refine ⟨fun letter hletter => .inl (Set.mem_biUnion hty hletter), ?_⟩
    have hty : ty.depth ≤ depth := hdepth (Set.mem_image_of_mem _ hty)
    exact hle ((hty.trans (Nat.le_max_left _ _)).trans (Nat.le_max_right _ _))
  refine ⟨vocabulary, ⟨hown.union (hattrs.image2 _ hown), ENat.natCast_ne_top _⟩,
    hle (Nat.le_max_left _ _), fun ty hty => hspells (.inl hty),
    fun node hnode => ⟨?_, ?_, ?_, ?_⟩⟩
  · intro ty hty
    exact hspells (.inr (Set.mem_biUnion hnode (List.mem_append_left _ hty)))
  · intro value hvalue
    apply hspells
    apply Or.inr
    apply Set.mem_biUnion hnode
    exact List.mem_append_right _ (by simp [hvalue])
  · intro attr hattr name isNumpy hmodule
    -- Only the types at the beginning have letters of modules.
    have hletter : Letter.atom (.module name isNumpy) ∈ own := by
      obtain hown | ⟨other, -, letter, hletter, heq⟩ := hmodule.letters _ List.mem_cons_self
      · exact hown
      · unfold Letter.qualified at heq
        split at heq
        · cases heq
        · exact heq ▸ hletter
    refine .flat rfl (List.forall_mem_singleton.mpr ?_)
    exact .inr ⟨attr, ⟨node, hnode, hattr⟩, _, hletter, rfl⟩
  · have hnode : node.arity ≤ arity := harity (Set.mem_image_of_mem _ hnode)
    exact hle ((hnode.trans (Nat.le_max_right _ _)).trans (Nat.le_max_right _ _))

/-- Finitely many functions and types have a finite vocabulary that the setting fits. -/
theorem exists_covers {setting : Setting} (hdtypes : setting.names.dtypes.Finite)
    {types : Set Ty} {functions : Set FunctionDef} (htypes : types.Finite)
    (hfunctions : functions.Finite) (size : Nat) :
    ∃ vocabulary : Vocabulary, vocabulary.IsFinite ∧ size ≤ vocabulary.bound ∧
      (∀ ty ∈ types, vocabulary.Spells ty) ∧ vocabulary.Fits setting ∧
      ∀ func ∈ functions, vocabulary.CoversFunction setting.names func := by
  let supplied : List Ty := [setting.options.indexType, setting.options.intBuiltin,
    setting.options.floatBuiltin, .carray .intp 0, .int32]
  have hall : ({ty | ty ∈ supplied} ∪ Ty.dtype '' setting.names.dtypes ∪ types).Finite :=
    ((List.finite_toSet supplied).union (hdtypes.image _)).union htypes
  have hnodes : (⋃ func ∈ functions, {node | node ∈ func.nodes}).Finite :=
    hfunctions.biUnion fun _ _ => List.finite_toSet _
  obtain ⟨vocabulary, hfinite, hsize, hspells, hadmits⟩ :=
    exists_admits setting.names hall hnodes size
  have hsupplied (ty : Ty) (hty : ty ∈ supplied) : vocabulary.Spells ty :=
    hspells ty (.inl (.inl hty))
  refine ⟨vocabulary, hfinite, hsize, fun ty hty => hspells ty (.inr hty), ?_, ?_⟩
  · exact {
      index := hsupplied _ (by simp [supplied])
      int := hsupplied _ (by simp [supplied])
      float := hsupplied _ (by simp [supplied])
      shape := hsupplied _ (by simp [supplied])
      rank := hsupplied _ (by simp [supplied])
      dtype := fun hattr => hspells _ (.inl (.inr ⟨_, ⟨_, _, hattr⟩, rfl⟩)) }
  · intro func hfunc node hnode
    exact hadmits node (Set.mem_biUnion hfunc hnode)

/-- With a bound on the number of axes there are finitely many lists of arguments. -/
theorem finite_spelledAll {vocabulary : Vocabulary} (hfinite : vocabulary.IsFinite) (axes : Nat) :
    {args | vocabulary.SpellsAll args ∧ ∀ ty ∈ args, ty.axes ≤ axes}.Finite := by
  obtain ⟨bound, hbound⟩ := ENat.ne_top_iff_exists.mp hfinite.bound
  let types := {ty // vocabulary.Spells ty ∧ ty.axes ≤ axes}
  have htypes : Finite types := (finite_spelled hfinite axes).to_subtype
  have hlists := List.finite_length_le types bound
  refine (hlists.image (List.map Subtype.val)).subset ?_
  rintro args ⟨hargs, haxes⟩
  lift args to List types using fun ty hty => ⟨hargs.spells ty hty, haxes ty hty⟩
  have hlength := hargs.length
  rw [List.length_map, ← hbound, Nat.cast_le] at hlength
  exact ⟨args, hlength, rfl⟩

end Vocabulary

end KernelFront
