/-!
# Tables keyed by name

A table holds at most one entry for each name, and its entries are kept in increasing order of their
names, so two tables with the same entries are equal.
-/

namespace Datalog
namespace Source

variable {α : Type}

/-- Put an entry into a list that is sorted by name, in place of an earlier entry of that name. -/
def insertSorted (name : String) (value : α) : List (String × α) → List (String × α)
  | [] => [(name, value)]
  | (name', value') :: entries =>
      if name < name' then (name, value) :: (name', value') :: entries
      else if name = name' then (name, value) :: entries
      else (name', value') :: insertSorted name value entries

/-- Whether a list of entries is strictly sorted by name. -/
def IsSorted (entries : List (String × α)) : Prop :=
  entries.Pairwise fun left right => left.1 < right.1

theorem mem_insertSorted {name : String} {value : α} {entries : List (String × α)}
    {entry : String × α} (member : entry ∈ insertSorted name value entries) :
    entry = (name, value) ∨ entry ∈ entries := by
  induction entries with
  | nil => simpa [insertSorted] using member
  | cons head entries ih =>
      unfold insertSorted at member
      grind

theorem IsSorted.insertSorted {entries : List (String × α)} (sorted : IsSorted entries)
    (name : String) (value : α) : IsSorted (Source.insertSorted name value entries) := by
  induction entries with
  | nil => simp [Source.insertSorted, IsSorted]
  | cons head entries ih =>
      obtain ⟨below, sortedTail⟩ := List.pairwise_cons.mp sorted
      unfold Source.insertSorted
      split
      next less =>
        refine List.pairwise_cons.mpr ⟨fun entry member => ?_, sorted⟩
        rcases List.mem_cons.mp member with rfl | member
        · exact less
        · exact Std.lt_trans less (below entry member)
      next notLess =>
        split
        next same => exact List.pairwise_cons.mpr ⟨same ▸ below, sortedTail⟩
        next different =>
          refine List.pairwise_cons.mpr ⟨fun entry member => ?_, ih sortedTail⟩
          rcases mem_insertSorted member with rfl | member
          · exact Std.lt_of_le_of_ne (Std.not_lt.mp notLess) (Ne.symm different)
          · exact below entry member

/-- A table from names to values. -/
structure FactTable (α : Type) where
  entries : List (String × α) := []
  sorted : IsSorted entries := by exact List.Pairwise.nil

namespace FactTable

/-- A table with an entry added, in place of an earlier entry of the same name. -/
def insert (table : FactTable α) (name : String) (value : α) : FactTable α where
  entries := insertSorted name value table.entries
  sorted := table.sorted.insertSorted name value

@[ext]
theorem ext {left right : FactTable α} (same : left.entries = right.entries) : left = right := by
  cases left
  cases right
  cases same
  rfl

end FactTable

end Source
end Datalog
