import Mathlib.Logic.Relation
import Mathlib.Data.List.Perm.Subperm
import Mathlib.Data.List.Nodup
import KernelFront.Proofs.Cache.Ownership

/-! # The graph of waits

A thread that waits for a key points to the thread that compiles it. Ranks that decrease along all
edges keep the graph acyclic. Edges appear when a thread begins to wait, where a cycle is looked
for, and when a key that threads still wait for gets a new owner, which waits for nothing at that
time.
-/

namespace KernelFront.Cache

namespace Shared

/-- The first thread waits for a key that the second one compiles. -/
def BlockedOn (shared : Shared) (thread owner : ThreadId) : Prop :=
  ∃ key, shared.waiting.get? thread = some key ∧ shared.owner? key = some owner

/-- Ranks of threads that decrease along every edge. -/
def Ranks (shared : Shared) (rank : ThreadId → Nat) : Prop :=
  ∀ ⦃thread owner⦄, shared.BlockedOn thread owner → rank owner < rank thread

theorem bind_owner?_eq_some {shared : Shared} {thread owner : ThreadId} :
    (shared.waiting.get? thread).bind shared.owner? = some owner ↔
      shared.BlockedOn thread owner :=
  Option.bind_eq_some_iff

theorem Ranks.lt_of_transGen {shared : Shared} {rank : ThreadId → Nat} (hranks : shared.Ranks rank)
    {thread last : ThreadId} (hpath : Relation.TransGen shared.BlockedOn thread last) :
    rank last < rank thread := by
  induction hpath with
  | single hedge => exact hranks hedge
  | tail _ hedge ih => exact Nat.lt_trans (hranks hedge) ih

theorem Ranks.acyclic {shared : Shared} {rank : ThreadId → Nat} (hranks : shared.Ranks rank)
    (thread : ThreadId) : ¬ Relation.TransGen shared.BlockedOn thread thread :=
  fun hcycle => Nat.lt_irrefl _ (hranks.lt_of_transGen hcycle)

/-- From every thread the waits lead to one that waits for no thread. -/
theorem Ranks.exists_last {shared : Shared} {rank : ThreadId → Nat} (hranks : shared.Ranks rank)
    (thread : ThreadId) : ∃ last, Relation.ReflTransGen shared.BlockedOn thread last ∧
      ∀ owner, ¬ shared.BlockedOn last owner := by
  induction hrank : rank thread using Nat.strongRecOn generalizing thread with
  | ind bound ih =>
      subst hrank
      by_cases hblocked : ∃ owner, shared.BlockedOn thread owner
      · obtain ⟨owner, hedge⟩ := hblocked
        obtain ⟨last, hpath, hlast⟩ := ih (rank owner) (hranks hedge) owner rfl
        exact ⟨last, hpath.head hedge, hlast⟩
      · exact ⟨thread, .refl, fun owner hedge => hblocked ⟨owner, hedge⟩⟩

/-! ## The search for a cycle is exact -/

theorem blockedWithin_succ {shared : Shared} {me thread : ThreadId} {steps : Nat} :
    shared.blockedWithin me (steps + 1) thread ↔
      thread = me ∨
        ∃ owner, shared.BlockedOn thread owner ∧ shared.blockedWithin me steps owner := by
  rw [blockedWithin]
  by_cases hme : thread = me
  · simp [hme]
  · simp only [hme, if_false, false_or]
    cases hnext : (shared.waiting.get? thread).bind shared.owner? with
    | none =>
        simp only [Bool.false_eq_true, false_iff]
        rintro ⟨owner, hedge, _⟩
        exact nomatch hnext.symm.trans (bind_owner?_eq_some.mpr hedge)
    | some next =>
        have hedge := bind_owner?_eq_some.mp hnext
        refine ⟨fun hrest => ⟨next, hedge, hrest⟩, ?_⟩
        rintro ⟨owner, hother, hrest⟩
        have hsame := hnext.symm.trans (bind_owner?_eq_some.mpr hother)
        exact Option.some.inj hsame ▸ hrest

theorem blockedWithin.reflTransGen {shared : Shared} {me thread : ThreadId} {steps : Nat}
    (hwithin : shared.blockedWithin me steps thread) :
    Relation.ReflTransGen shared.BlockedOn thread me := by
  induction steps generalizing thread with
  | zero => cases hwithin
  | succ steps ih =>
      obtain rfl | ⟨owner, hedge, hrest⟩ := blockedWithin_succ.mp hwithin
      · exact .refl
      · exact (ih hrest).head hedge

theorem blockedWithin.mono {shared : Shared} {me thread : ThreadId} {steps more : Nat}
    (hle : steps ≤ more) (hwithin : shared.blockedWithin me steps thread) :
    shared.blockedWithin me more thread := by
  induction steps generalizing thread more with
  | zero => cases hwithin
  | succ steps ih =>
      obtain ⟨rest, rfl⟩ := Nat.exists_eq_succ_of_ne_zero (Nat.ne_of_gt (Nat.lt_of_lt_of_le
        (Nat.succ_pos steps) hle))
      obtain hme | ⟨owner, hedge, hrest⟩ := blockedWithin_succ.mp hwithin
      · exact blockedWithin_succ.mpr (.inl hme)
      · exact blockedWithin_succ.mpr (.inr ⟨owner, hedge, ih (Nat.le_of_succ_le_succ hle) hrest⟩)

/-- A chain of waits visits every thread at most once. -/
theorem Ranks.exists_visited {shared : Shared} {rank : ThreadId → Nat} (hranks : shared.Ranks rank)
    {thread me : ThreadId} (hpath : Relation.ReflTransGen shared.BlockedOn thread me) :
    ∃ visited : List ThreadId, visited.Nodup ∧
      (∀ other ∈ visited, rank other ≤ rank thread ∧
        other ∈ shared.waiting.entries.map Prod.fst) ∧
      shared.blockedWithin me (visited.length + 1) thread := by
  induction hpath using Relation.ReflTransGen.head_induction_on with
  | refl => exact ⟨[], .nil, nofun, blockedWithin_succ.mpr (.inl rfl)⟩
  | @head thread owner hedge _ ih =>
      obtain ⟨visited, hnodup, hvisited, hwithin⟩ := ih
      have hlower : ∀ other ∈ visited, rank other < rank thread := fun other hmem =>
        Nat.lt_of_le_of_lt (hvisited other hmem).1 (hranks hedge)
      refine ⟨thread :: visited, List.nodup_cons.mpr ⟨?_, hnodup⟩, ?_,
        blockedWithin_succ.mpr (.inr ⟨owner, hedge, hwithin⟩)⟩
      · exact fun hmem => Nat.lt_irrefl _ (hlower thread hmem)
      · intro other hmem
        obtain rfl | hmem := List.mem_cons.mp hmem
        · obtain ⟨key, hwaits, _⟩ := hedge
          obtain ⟨entry, hentry, rfl⟩ := Option.map_eq_some_iff.mp hwaits
          have hkey := List.find?_some hentry
          exact ⟨Nat.le.refl, List.mem_map.mpr ⟨entry, List.mem_of_find?_eq_some hentry,
            of_decide_eq_true hkey⟩⟩
        · exact ⟨Nat.le_of_lt (hlower other hmem), (hvisited other hmem).2⟩

/-- While the graph is acyclic, the bounded search finds out whether a thread waits on another. -/
theorem Ranks.waitsOn_iff {shared : Shared} {rank : ThreadId → Nat} (hranks : shared.Ranks rank)
    {thread me : ThreadId} :
    shared.waitsOn thread me ↔ Relation.ReflTransGen shared.BlockedOn thread me := by
  refine ⟨blockedWithin.reflTransGen, fun hpath => ?_⟩
  obtain ⟨visited, hnodup, hvisited, hwithin⟩ := hranks.exists_visited hpath
  have hshort : visited.length ≤ shared.waiting.size := by
    have hsubperm := List.Nodup.subperm hnodup fun other hmem => (hvisited other hmem).2
    simpa [Table.size] using hsubperm.length_le
  exact blockedWithin.mono (Nat.succ_le_succ hshort) hwithin

/-- A chain of waits that begins with an owner leads to owners only. -/
theorem waitsOn.exists_owned {shared : Shared} {me owner : ThreadId} {key : Key}
    (howner : shared.owner? key = some owner) (hwaits : shared.waitsOn owner me) :
    ∃ owned, shared.owner? owned = some me := by
  obtain rfl | ⟨last, _, asked, _, howned⟩ :=
    Relation.ReflTransGen.cases_tail (blockedWithin.reflTransGen hwaits)
  · exact ⟨key, howner⟩
  · exact ⟨asked, howned⟩

/-! ## Changes of the graph -/

/-- Fewer edges keep their ranks. -/
theorem Ranks.mono {shared after : Shared} {rank : ThreadId → Nat} (hranks : shared.Ranks rank)
    (hedges : ∀ {thread owner}, after.BlockedOn thread owner → shared.BlockedOn thread owner) :
    after.Ranks rank :=
  fun _ _ hedge => hranks (hedges hedge)

/-- A thread that waits for nothing may become the owner of any key. -/
theorem Ranks.grant {shared after : Shared} {rank : ThreadId → Nat} {me : ThreadId}
    (hranks : shared.Ranks rank) (hwaiting : after.waiting = shared.waiting.erase me)
    (howner : ∀ {key owner}, after.owner? key = some owner →
      shared.owner? key = some owner ∨ owner = me) :
    after.Ranks fun thread => if thread = me then 0 else rank thread + 1 := by
  rintro thread owner ⟨key, hwaits, howns⟩
  rw [hwaiting, Table.get?_erase] at hwaits
  by_cases hthread : thread = me
  · simp [hthread] at hwaits
  · rw [if_neg hthread] at hwaits
    simp only [if_neg hthread]
    by_cases hme : owner = me
    · simp [hme]
    · have hedge : shared.BlockedOn thread owner := ⟨key, hwaits, (howner howns).resolve_right hme⟩
      simpa [hme] using hranks hedge

open Classical in
/-- A thread may begin to wait for a key if its owner is not blocked on that thread. -/
theorem Ranks.wait {shared : Shared} {rank : ThreadId → Nat} {me owner : ThreadId} {key : Key}
    (hranks : shared.Ranks rank) (howner : shared.owner? key = some owner)
    (hfree : ¬ Relation.ReflTransGen shared.BlockedOn owner me) :
    Ranks { shared with waiting := shared.waiting.insert me key } fun thread =>
      if Relation.ReflTransGen shared.BlockedOn thread me then rank thread + rank owner + 1
      else rank thread := by
  rintro thread last ⟨other, hwaits, howns⟩
  replace howns : shared.owner? other = some last := howns
  simp only [Table.get?_insert] at hwaits
  by_cases hthread : thread = me
  · subst hthread
    cases (if_pos rfl : (if thread = thread then some key else _) = _).symm.trans hwaits
    cases Option.some.inj (howner.symm.trans howns)
    simp only [hfree, if_false, Relation.ReflTransGen.refl, if_true]
    omega
  · rw [if_neg hthread] at hwaits
    have hedge : shared.BlockedOn thread last := ⟨other, hwaits, howns⟩
    have hlower := hranks hedge
    by_cases hlast : Relation.ReflTransGen shared.BlockedOn last me
    · simp only [hlast, hlast.head hedge, if_true]
      omega
    · simp only [hlast, if_false]
      split <;> omega

end Shared

end KernelFront.Cache
