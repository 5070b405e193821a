import Datalog.Proofs.Store.View

/-!
# Guessing a key

A key between two keys is guessed column by column, and each column is drawn from the numbers that keep
the key between them.  Where there are no such numbers nothing is drawn, so it does not matter what a draw
from an empty interval would do.  Since a guess does not lie above the last key of a range, the entries
below it are never all entries of the range.
-/

namespace Datalog

/-- A way to draw a number from `low` up to but not including `high`, if it does not fail. -/
abbrev Drawing := (low high : Nat) → Draws → Option (Nat × Draws)

namespace Drawing

/-- Numbers are drawn from every interval that is not empty. -/
def Serves (draw : Drawing) : Prop :=
  ∀ low high draws, low < high → draw low high draws = some (draws.between low high)

/-- No number can be drawn from an empty interval. -/
def refusing : Drawing := fun low high draws =>
  if low < high then some (draws.between low high) else none

theorem serves_refusing : refusing.Serves :=
  fun _ _ _ nonempty => if_pos nonempty

end Drawing

namespace Split

/-- The columns of a random key, with the numbers drawn in a given way. -/
def guessColumnsBy (draw : Drawing) (bound : Nat) (aboveFirst belowLast : Bool) :
    (first last : Key) → Draws → Option (Key × Draws)
  | low :: first, high :: last, draws => do
      let lowBound := if aboveFirst then 0 else low.raw.toNat
      let highBound := if belowLast then bound else nextRaw high.raw.toNat
      let (raw, draws) ←
        if lowBound < highBound then draw lowBound highBound draws else some (lowBound, draws)
      let (columns, draws) ←
        guessColumnsBy draw bound (aboveFirst || low.raw.toNat < raw)
          (belowLast || raw < high.raw.toNat) first last draws
      return (⟨.ofNat raw⟩ :: columns, draws)
  | _, _, draws => some ([], draws)

/-- A random key from `first` to `last`, with the numbers drawn in a given way. -/
def guessMiddleBy (draw : Drawing) (first last : Key) (draws : Draws) : Option (Key × Draws) :=
  guessColumnsBy draw (boundOf first last) false false first last draws

theorem guessColumnsBy_eq {draw : Drawing} (serves : draw.Serves) (bound : Nat)
    (aboveFirst belowLast : Bool) (first last : Key) (draws : Draws) :
    guessColumnsBy draw bound aboveFirst belowLast first last draws =
      some (guessColumns bound aboveFirst belowLast first last draws) := by
  induction first generalizing last aboveFirst belowLast draws with
  | nil => rfl
  | cons low first ih =>
      cases last with
      | nil => rfl
      | cons high last =>
          simp only [guessColumnsBy, guessColumns]
          generalize (if aboveFirst then 0 else low.raw.toNat) = lowBound
          generalize (if belowLast then bound else nextRaw high.raw.toNat) = highBound
          by_cases nonempty : lowBound < highBound
          · simp [nonempty, serves lowBound highBound draws nonempty, ih]
          · simp [nonempty, ih]

end Split

namespace Key

theorem le_iff_rank_le {first second : Key} (sameLength : first.length = second.length) :
    first ≤ second ↔ rank first ≤ rank second := by
  rw [← List.not_lt, lt_iff_rank_lt sameLength.symm, Nat.not_lt]

end Key

namespace Split

theorem not_mem_entriesIn_excluded {index : Index} {keys : KeyRange} {key : Key} {entry : Entry}
    (notAbove : key ≤ entry.key) :
    entry ∉ index.entriesIn { keys with upper := .excluded key } := by
  intro member
  have contained := (List.mem_filter.mp member).2
  simp only [KeyRange.contains, KeyRange.isBelow, Bool.and_eq_true, decide_eq_true_eq] at contained
  exact List.not_lt.mpr notAbove contained.2

/-- A guess is a key from the first to the last, whatever numbers are drawn, and none is drawn from an
empty interval.  The entries of a range below a guess between its extremes do not include the last. -/
theorem guessMiddle_within {first last : Key} (sameLength : first.length = last.length)
    (ordered : first ≤ last) (draws : Draws) :
    (∀ draw : Drawing, draw.Serves →
      guessMiddleBy draw first last draws = some (guessMiddle first last draws)) ∧
    (guessMiddle first last draws).1.length = first.length ∧
    first ≤ (guessMiddle first last draws).1 ∧ (guessMiddle first last draws).1 ≤ last ∧
    ∀ (index : Index) (keys : KeyRange) (entry : Entry),
      (index.entriesIn keys).getLast? = some entry → entry.key = last →
        entry ∉ index.entriesIn { keys with upper := .excluded (guessMiddle first last draws).1 } := by
  obtain ⟨length, above, below⟩ :=
    guessMiddle_between draws sameLength ((Key.le_iff_rank_le sameLength).mp ordered)
  have notAbove : (guessMiddle first last draws).1 ≤ last :=
    (Key.le_iff_rank_le (length.trans sameLength)).mpr below
  refine ⟨?_, length, (Key.le_iff_rank_le length.symm).mpr above, notAbove, ?_⟩
  · exact fun draw serves => guessColumnsBy_eq serves _ _ _ _ _ _
  · rintro index keys entry - rfl
    exact not_mem_entriesIn_excluded notAbove

end Split

namespace Sample

/-- A key whose second column cannot grow. -/
def lowKey : Key := [⟨5⟩, .greatest]

/-- A key whose first column cannot grow. -/
def highKey : Key := [.greatest, .least]

/-- Large numbers that stand for random draws. -/
def largeDraws : Draws where
  number n := 4294967295 * (n + 1)

end Sample

namespace Split

theorem guessMiddle_within_sample :
    Sample.lowKey.length = Sample.highKey.length ∧ Sample.lowKey ≤ Sample.highKey ∧
      guessMiddleBy .refusing Sample.lowKey Sample.highKey Sample.largeDraws =
        some (guessMiddle Sample.lowKey Sample.highKey Sample.largeDraws) ∧
      Sample.lowKey ≤ (guessMiddle Sample.lowKey Sample.highKey Sample.largeDraws).1 ∧
      (guessMiddle Sample.lowKey Sample.highKey Sample.largeDraws).1 ≤ Sample.highKey := by
  have sameLength : Sample.lowKey.length = Sample.highKey.length := rfl
  have ordered : Sample.lowKey ≤ Sample.highKey := by decide
  obtain ⟨drawn, -, above, below, -⟩ := guessMiddle_within sameLength ordered Sample.largeDraws
  exact ⟨sameLength, ordered, drawn .refusing Drawing.serves_refusing, above, below⟩

end Split

end Datalog
