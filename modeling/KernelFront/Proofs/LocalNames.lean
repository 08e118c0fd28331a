import Mathlib.Data.List.Pairwise
import KernelFront.Proofs.Traversal
import KernelFront.Tree.Locals

/-! # Local names in order

A place within a function leads from its body to an occurrence of a name: the number of a statement,
the part of the statement, the number of a target or of an inner statement in that part, and so on.
A statement's targets are its part 0, its body is part 1 and its alternative part 2, so the places
in ascending order are those of a walk that meets a loop's target before its body and the body
before the alternative. The local names of a function are the names that occur as targets, less its
parameters, each at the rank of its first place.
-/

namespace KernelFront

/-! ## Places of names -/

/-- A target binds a name at a place within it. -/
inductive Expr.BindsAt : Expr → List Nat → String → Prop where
  | name {note : Note} {id : String} {access : Access} : BindsAt (.name note id access) [] id
  | tuple {note : Note} {elts : List Expr} {access : Access} {index : Nat} {elt : Expr}
      {place : List Nat} {name : String} (hat : elts[index]? = some elt)
      (hbinds : elt.BindsAt place name) : BindsAt (.tuple note elts access) (index :: place) name
  | list {note : Note} {elts : List Expr} {access : Access} {index : Nat} {elt : Expr}
      {place : List Nat} {name : String} (hat : elts[index]? = some elt)
      (hbinds : elt.BindsAt place name) : BindsAt (.list note elts access) (index :: place) name

/-- The targets of a statement itself, not of its nested bodies. -/
def Stmt.targets : Stmt → List Expr
  | .assign _ targets _ => targets
  | .augAssign _ target _ _ | .forIn _ target _ _ _ _ => [target]
  | _ => []

/-- A statement binds a name at a place within it. -/
inductive Stmt.BindsAt : Stmt → List Nat → String → Prop where
  | target {stmt : Stmt} {index : Nat} {target : Expr} {place : List Nat} {name : String}
      (hat : stmt.targets[index]? = some target) (hbinds : target.BindsAt place name) :
      BindsAt stmt (0 :: index :: place) name
  | inner {stmt : Stmt} {part index : Nat} {body : List Stmt} {inner : Stmt} {place : List Nat}
      {name : String} (hbody : stmt.bodies[part]? = some body) (hat : body[index]? = some inner)
      (hbinds : inner.BindsAt place name) : BindsAt stmt ((part + 1) :: index :: place) name

/-- A function binds a name at a place of its body. -/
def FunctionDef.BindsAt (func : FunctionDef) (place : List Nat) (name : String) : Prop :=
  ∃ index stmt rest, func.body[index]? = some stmt ∧ place = index :: rest ∧ stmt.BindsAt rest name

/-! ## Names in the order of their places -/

/-- These are the names that stand at places, in the order of the places. -/
def InOrder (stands : List Nat → String → Prop) (names : List String) : Prop :=
  ∃ occurrences : List (List Nat × String), occurrences.map Prod.snd = names ∧
    occurrences.Pairwise (fun first second => first.1 < second.1) ∧
    ∀ place name, (place, name) ∈ occurrences ↔ stands place name

namespace InOrder

variable {stands other : List Nat → String → Prop} {names more : List String}

theorem congr (hnames : InOrder stands names)
    (hsame : ∀ place name, stands place name ↔ other place name) : InOrder other names := by
  obtain ⟨occurrences, hmap, hsorted, hmem⟩ := hnames
  exact ⟨occurrences, hmap, hsorted, fun place name => (hmem place name).trans (hsame place name)⟩

theorem nil : InOrder (fun _ _ => False) [] :=
  ⟨[], rfl, .nil, fun _ _ => by simp⟩

theorem singleton (name : String) :
    InOrder (fun place found => place = [] ∧ found = name) [name] := by
  refine ⟨[([], name)], rfl, List.pairwise_singleton _ _, fun place found => ?_⟩
  rw [List.mem_singleton, Prod.mk.injEq]

/-- One step down comes before all places. -/
theorem below (hnames : InOrder stands names) (index : Nat) :
    InOrder (fun place name => ∃ rest, place = index :: rest ∧ stands rest name) names := by
  obtain ⟨occurrences, hmap, hsorted, hmem⟩ := hnames
  refine ⟨occurrences.map fun (place, name) => (index :: place, name), ?_, ?_, ?_⟩
  · rw [← hmap, List.map_map]
    rfl
  · refine List.pairwise_map.mpr (hsorted.imp fun hlt => ?_)
    exact List.cons_lt_cons_iff.mpr (.inr ⟨rfl, hlt⟩)
  · intro place name
    rw [List.mem_map]
    constructor
    · rintro ⟨⟨rest, _⟩, hrest, heq⟩
      cases heq
      exact ⟨rest, rfl, (hmem rest name).mp hrest⟩
    · rintro ⟨rest, rfl, hrest⟩
      exact ⟨(rest, name), (hmem rest name).mpr hrest, rfl⟩

theorem append (hnames : InOrder stands names) (hmore : InOrder other more)
    (hlt : ∀ {first name second found}, stands first name → other second found → first < second) :
    InOrder (fun place name => stands place name ∨ other place name) (names ++ more) := by
  obtain ⟨occurrences, hmap, hsorted, hmem⟩ := hnames
  obtain ⟨later, hlaterMap, hlaterSorted, hlaterMem⟩ := hmore
  refine ⟨occurrences ++ later, ?_, List.pairwise_append.mpr ⟨hsorted, hlaterSorted, ?_⟩, ?_⟩
  · rw [List.map_append, hmap, hlaterMap]
  · intro first hfirst second hsecond
    exact hlt ((hmem _ _).mp hfirst) ((hlaterMem _ _).mp hsecond)
  · intro place name
    rw [List.mem_append, hmem, hlaterMem]

/-- The names of numbered parts, one part after the other. -/
theorem parts {α : Type} {stands : α → List Nat → String → Prop} {names : α → List String}
    {parts : List α} (hparts : ∀ part ∈ parts, InOrder (stands part) (names part)) (first : Nat) :
    InOrder (fun place name => ∃ index part rest, parts[index]? = some part ∧
      place = (first + index) :: rest ∧ stands part rest name) (parts.flatMap names) := by
  induction parts generalizing first with
  | nil => exact nil.congr (by simp)
  | cons part parts ih =>
      obtain ⟨hpart, hrest⟩ := List.forall_mem_cons.mp hparts
      rw [List.flatMap_cons]
      refine ((hpart.below first).append (ih hrest (first + 1)) ?_).congr fun place name => ?_
      · rintro _ _ _ _ ⟨rest, rfl, _⟩ ⟨index, _, later, _, rfl, _⟩
        exact List.cons_lt_cons_iff.mpr (.inl (by omega))
      · constructor
        · rintro (⟨rest, rfl, hstands⟩ | ⟨index, other, rest, hat, rfl, hstands⟩)
          · exact ⟨0, part, rest, rfl, rfl, hstands⟩
          · exact ⟨index + 1, other, rest, hat, by rw [Nat.add_assoc, Nat.add_comm 1], hstands⟩
        · rintro ⟨index, other, rest, hat, rfl, hstands⟩
          cases index with
          | zero =>
              cases hat
              exact .inl ⟨rest, rfl, hstands⟩
          | succ index =>
              exact .inr ⟨index, other, rest, hat, by rw [Nat.add_assoc, Nat.add_comm 1], hstands⟩

end InOrder

theorem Expr.targetNamesAll_eq (es : List Expr) : targetNamesAll es = es.flatMap targetNames := by
  induction es with
  | nil => rfl
  | cons e es ih => rw [targetNamesAll, ih, List.flatMap_cons]

theorem Stmt.boundNamesBody_eq (body : List Stmt) :
    boundNamesBody body = body.flatMap boundNames := by
  induction body with
  | nil => rfl
  | cons stmt body ih => rw [boundNamesBody, ih, List.flatMap_cons]

theorem Stmt.boundNames_eq (stmt : Stmt) : stmt.boundNames =
    stmt.targets.flatMap Expr.targetNames ++
      stmt.bodies.flatMap fun body => body.flatMap boundNames := by
  cases stmt <;> simp [boundNames, targets, bodies, Expr.targetNamesAll_eq, boundNamesBody_eq]

theorem Expr.inOrder_targetNames (e : Expr) : InOrder e.BindsAt e.targetNames := by
  induction e using Expr.induct with
  | hstep e ih =>
      cases e with
      | name note id access =>
          refine (InOrder.singleton id).congr fun place name => ⟨?_, fun hbinds => ?_⟩
          · rintro ⟨rfl, rfl⟩
            exact .name
          · cases hbinds
            exact ⟨rfl, rfl⟩
      | tuple note elts access | list note elts access =>
          rw [targetNames, targetNamesAll_eq]
          refine (InOrder.parts ih 0).congr fun place name => ⟨?_, fun hbinds => ?_⟩
          · rintro ⟨index, elt, rest, hat, rfl, hbinds⟩
            rw [Nat.zero_add]
            constructor
            · exact hat
            · exact hbinds
          · cases hbinds
            exact ⟨_, _, _, ‹_›, by rw [Nat.zero_add], ‹_›⟩
      | _ => exact InOrder.nil.congr fun place name => ⟨False.elim, nofun⟩

theorem Stmt.inOrder_boundNames (stmt : Stmt) : InOrder stmt.BindsAt stmt.boundNames := by
  induction stmt using Stmt.induct with
  | hstep stmt ih =>
      rw [boundNames_eq]
      have htargets := InOrder.parts (fun target (_ : target ∈ stmt.targets) =>
        Expr.inOrder_targetNames target) 0
      have hbodies := InOrder.parts (fun body hbody => InOrder.parts (ih body hbody) 0) 1
      refine ((htargets.below 0).append hbodies ?_).congr fun place name => ⟨?_, fun hbinds => ?_⟩
      · rintro _ _ _ _ ⟨_, rfl, _⟩ ⟨part, _, _, _, rfl, _⟩
        exact List.cons_lt_cons_iff.mpr (.inl (by omega))
      · rintro (⟨_, rfl, index, target, rest, hat, rfl, hbinds⟩ |
          ⟨part, body, _, hbody, rfl, index, inner, rest, hat, rfl, hbinds⟩)
        · rw [Nat.zero_add]
          exact .target hat hbinds
        · rw [Nat.zero_add, Nat.add_comm]
          exact .inner hbody hat hbinds
      · cases hbinds with
        | target hat hbinds =>
            exact .inl ⟨_, rfl, _, _, _, hat, by rw [Nat.zero_add], hbinds⟩
        | inner hbody hat hbinds =>
            refine .inr ⟨_, _, _, hbody, by rw [Nat.add_comm], _, _, _, hat, ?_, hbinds⟩
            rw [Nat.zero_add]

theorem FunctionDef.inOrder_boundNames (func : FunctionDef) :
    InOrder func.BindsAt (Stmt.boundNamesBody func.body) := by
  rw [Stmt.boundNamesBody_eq]
  refine (InOrder.parts (fun stmt _ => stmt.inOrder_boundNames) 0).congr fun place name => ?_
  simp only [Nat.zero_add]
  rfl

/-! ## First occurrences -/

theorem of_mem_firstOccurrences {name : String} {seen names : List String}
    (hname : name ∈ firstOccurrences seen names) : name ∈ names ∧ name ∉ seen := by
  induction names generalizing seen with
  | nil => cases hname
  | cons first names ih =>
      rw [firstOccurrences] at hname
      split at hname
      next => exact ⟨List.mem_cons_of_mem _ (ih hname).1, (ih hname).2⟩
      next hfirst =>
        rcases List.mem_cons.mp hname with rfl | hname
        · exact ⟨List.mem_cons_self, hfirst⟩
        · obtain ⟨hnames, hseen⟩ := ih hname
          exact ⟨List.mem_cons_of_mem _ hnames, fun hmem => hseen (List.mem_cons_of_mem _ hmem)⟩

theorem mem_firstOccurrences {name : String} {seen names : List String} (hname : name ∈ names)
    (hnew : name ∉ seen) : name ∈ firstOccurrences seen names := by
  induction names generalizing seen with
  | nil => cases hname
  | cons first names ih =>
      rw [firstOccurrences]
      obtain rfl | hname := List.mem_cons.mp hname
      · rw [if_neg hnew]
        exact List.mem_cons_self
      · split
        · exact ih hname hnew
        · by_cases hfirst : name = first
          · exact hfirst ▸ List.mem_cons_self
          · refine List.mem_cons_of_mem _ (ih hname ?_)
            exact List.not_mem_cons_of_ne_of_not_mem hfirst hnew

theorem nodup_firstOccurrences (seen names : List String) :
    (firstOccurrences seen names).Nodup := by
  induction names generalizing seen with
  | nil => exact List.nodup_nil
  | cons name names ih =>
      rw [firstOccurrences]
      split
      · exact ih seen
      · refine List.nodup_cons.mpr ⟨fun hname => ?_, ih _⟩
        exact (of_mem_firstOccurrences hname).2 List.mem_cons_self

/-- First occurrences come in the order of the first places. -/
theorem InOrder.pairwise_firstOccurrences {stands : List Nat → String → Prop}
    {names : List String} (hnames : InOrder stands names) (seen : List String) :
    (firstOccurrences seen names).Pairwise fun first second =>
      ∃ place, stands place first ∧ ∀ other, stands other second → place < other := by
  obtain ⟨occurrences, rfl, hsorted, hmem⟩ := hnames
  simp only [← hmem]
  clear hmem stands
  induction occurrences generalizing seen with
  | nil => exact .nil
  | cons occurrence occurrences ih =>
      obtain ⟨place, name⟩ := occurrence
      obtain ⟨hfirst, hrest⟩ := List.pairwise_cons.mp hsorted
      -- What comes later in the list is not this name, so its places are among the later ones.
      have hlater {passed : List String} (hpassed : name ∈ passed) :
          (firstOccurrences passed (occurrences.map Prod.snd)).Pairwise fun first second =>
            ∃ place', (place', first) ∈ (place, name) :: occurrences ∧
              ∀ other, (other, second) ∈ (place, name) :: occurrences → place' < other := by
        refine (ih passed hrest).imp_of_mem ?_
        rintro first second _ hsecond ⟨place', hplace, hbefore⟩
        refine ⟨place', List.mem_cons_of_mem _ hplace, fun other hother => ?_⟩
        obtain heq | hother := List.mem_cons.mp hother
        · cases heq
          exact absurd hpassed (of_mem_firstOccurrences hsecond).2
        · exact hbefore other hother
      rw [List.map_cons, firstOccurrences]
      split
      · rename_i hseen
        exact hlater hseen
      · refine List.pairwise_cons.mpr ⟨fun second hsecond => ?_, hlater List.mem_cons_self⟩
        refine ⟨place, List.mem_cons_self, fun other hother => ?_⟩
        obtain heq | hother := List.mem_cons.mp hother
        · cases heq
          exact absurd List.mem_cons_self (of_mem_firstOccurrences hsecond).2
        · exact hfirst _ hother

/-- The local names of a function are the names that it binds at some place and that are no
parameters, without repetitions, and each has a place before all places of those that follow it. -/
theorem FunctionDef.localNames_bound_in_order (func : FunctionDef) :
    func.localNames.Nodup ∧
      (∀ name, name ∈ func.localNames ↔ name ∉ func.args ∧ ∃ place, func.BindsAt place name) ∧
      func.localNames.Pairwise fun first second =>
        ∃ place, func.BindsAt place first ∧ ∀ other, func.BindsAt other second → place < other := by
  have hnames := func.inOrder_boundNames
  refine ⟨nodup_firstOccurrences _ _, fun name => ?_, hnames.pairwise_firstOccurrences func.args⟩
  obtain ⟨occurrences, hmap, _, hmem⟩ := hnames
  have hbound : name ∈ Stmt.boundNamesBody func.body ↔ ∃ place, func.BindsAt place name := by
    rw [← hmap, List.mem_map]
    constructor
    · rintro ⟨⟨place, _⟩, hoccurrence, rfl⟩
      exact ⟨place, (hmem place _).mp hoccurrence⟩
    · rintro ⟨place, hplace⟩
      exact ⟨(place, name), (hmem place name).mpr hplace, rfl⟩
  rw [← hbound]
  constructor
  · intro hname
    exact (of_mem_firstOccurrences hname).symm
  · rintro ⟨hnew, hname⟩
    exact mem_firstOccurrences hname hnew

end KernelFront
