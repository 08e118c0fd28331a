/-! # Tables

A table gives at most one value to each of finitely many keys. `get?` is its view: every operation
below is described by what it does to the view.
-/

namespace KernelFront

/-- A finite map. -/
structure Table (κ ν : Type) where
  entries : List (κ × ν) := []
  distinct : entries.Pairwise fun a b => a.1 ≠ b.1 := by simp

namespace Table

variable {κ ν : Type}

instance : Inhabited (Table κ ν) := ⟨{}⟩

/-- The number of keys. -/
def size (table : Table κ ν) : Nat := table.entries.length

/-- Keep the entries whose keys satisfy a test. -/
def retain (keep : κ → Bool) (table : Table κ ν) : Table κ ν :=
  ⟨table.entries.filter fun entry => keep entry.1, table.distinct.filter _⟩

variable [DecidableEq κ]

/-- The value of a key. -/
def get? (table : Table κ ν) (key : κ) : Option ν :=
  (table.entries.find? fun entry => entry.1 = key).map Prod.snd

/-- Whether a key has a value. -/
def contains (table : Table κ ν) (key : κ) : Bool := (table.get? key).isSome

/-- Remove a key. -/
def erase (table : Table κ ν) (key : κ) : Table κ ν := table.retain fun other => other ≠ key

/-- Give a key a value. -/
def insert (table : Table κ ν) (key : κ) (value : ν) : Table κ ν :=
  ⟨(key, value) :: (table.erase key).entries, by
    refine List.pairwise_cons.2 ⟨fun entry member => ?_, (table.erase key).distinct⟩
    simp only [erase, retain, List.mem_filter, decide_eq_true_eq] at member
    exact fun same => member.2 same.symm⟩

@[simp] theorem get?_empty (key : κ) : ({} : Table κ ν).get? key = none := rfl

theorem get?_retain (keep : κ → Bool) (table : Table κ ν) (key : κ) :
    (table.retain keep).get? key = if keep key then table.get? key else none := by
  obtain ⟨entries, distinct⟩ := table
  simp only [get?, retain]
  clear distinct
  induction entries with
  | nil => simp
  | cons entry entries ih =>
      by_cases kept : keep entry.1 <;> by_cases same : entry.1 = key <;>
        simp_all

@[simp] theorem get?_erase (table : Table κ ν) (key other : κ) :
    (table.erase key).get? other = if other = key then none else table.get? other := by
  rw [erase, get?_retain]
  by_cases same : other = key <;> simp [same]

@[simp] theorem get?_insert (table : Table κ ν) (key other : κ) (value : ν) :
    (table.insert key value).get? other = if other = key then some value else table.get? other := by
  have rest := get?_erase table key other
  simp only [get?] at rest
  by_cases same : key = other
  · subst same
    simp [get?, insert]
  · have reversed : other ≠ key := fun h => same h.symm
    simp only [if_neg reversed] at rest
    simp only [get?, insert, List.find?_cons, same, reversed, decide_false, if_false, rest]

end Table

end KernelFront
