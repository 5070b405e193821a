import Datalog.Proofs.Store.FactStore
import Mathlib.Data.Set.Card
import Mathlib.Data.Set.Finite.List
import Mathlib.Order.CompletePartialOrder

/-!
# How far a view extends

A view that has copied its tuples extends over as many tuples; one that remembers a range extends over
all keys that the range may come to hold.  The parts of a view extend less far than the view, so that a
view cannot be split for ever, however its index grows meanwhile.
-/

namespace Datalog

theorem length_le_ncard {α : Type} {items : List α} {inside : Set α}
    (distinct : items.Nodup) (members : ∀ item ∈ items, item ∈ inside) (finite : inside.Finite) :
    items.length ≤ inside.ncard := by
  classical
  rw [← List.toFinset_card_of_nodup distinct, ← Set.ncard_coe_finset]
  refine Set.ncard_le_ncard (fun item member => members item ?_) finite
  simpa using member

instance : Finite TermId :=
  Finite.of_injective (fun id : TermId => id.raw.toFin) fun _ _ same =>
    Key.ext_raw (congrArg Fin.val same)

instance : Std.IsLinearOrder TermId where
  le_refl id := Nat.le_refl id.raw.toNat
  le_trans _ _ _ := Nat.le_trans
  le_antisymm _ _ first second := Key.ext_raw (Nat.le_antisymm first second)
  le_total first second := Nat.le_total first.raw.toNat second.raw.toNat

instance : Std.LawfulOrderLT TermId where
  lt_iff _ _ := Nat.lt_iff_le_and_not_ge

/-! ## Ranges -/

namespace KeyRange

variable {bound : KeyBound} {key other : Key}

theorem isBelow_of_le (below : isBelow other bound = true) (le : key ≤ other) :
    isBelow key bound = true := by
  cases bound with
  | unbounded => rfl
  | included bound =>
      have below : other ≤ bound := by simpa [isBelow] using below
      simpa [isBelow] using List.le_trans le below
  | excluded bound =>
      have below : other < bound := by simpa [isBelow] using below
      simpa [isBelow] using List.lt_of_le_of_lt le below

theorem isAbove_of_le (above : isAbove other bound = true) (le : other ≤ key) :
    isAbove key bound = true := by
  cases bound with
  | unbounded => rfl
  | included bound =>
      have above : bound ≤ other := by simpa [isAbove] using above
      simpa [isAbove] using List.le_trans above le
  | excluded bound =>
      have above : bound < other := by simpa [isAbove] using above
      have : bound < key := by
        by_contra notAbove
        exact List.le_trans le (List.not_lt.mp notAbove) above
      simpa [isAbove] using this

/-- The keys of a range that have at most a given number of columns. -/
def held (columns : Nat) (range : KeyRange) : Set Key :=
  {key | key.length ≤ columns ∧ range.contains key = true}

theorem finite_held (columns : Nat) (range : KeyRange) : (range.held columns).Finite :=
  (List.finite_length_le TermId columns).subset fun _ member => member.1

/-- The number of keys that have at most a given number of columns. -/
noncomputable def keyCount (columns : Nat) : Nat :=
  (KeyRange.held columns {}).ncard

theorem ncard_held_le (columns : Nat) (range : KeyRange) :
    (range.held columns).ncard ≤ keyCount columns :=
  Set.ncard_le_ncard (fun _ member => ⟨member.1, rfl⟩) (finite_held columns {})

section Parts

variable {columns : Nat} {range : KeyRange} {low high middle : Key}

/-- Below a key that is not above one of the range, the range has fewer keys. -/
theorem held_below (highIn : high ∈ range.held columns) (notAbove : middle ≤ high) :
    ({ range with upper := .excluded middle } : KeyRange).held columns ⊂ range.held columns := by
  obtain ⟨highLength, highIn⟩ := highIn
  obtain ⟨highAbove, highBelow⟩ := Bool.and_eq_true_iff.mp highIn
  refine Set.ssubset_iff_exists.mpr ⟨?_, high, ⟨highLength, highIn⟩, ?_⟩
  · rintro key ⟨length, inPart⟩
    obtain ⟨above, below⟩ := Bool.and_eq_true_iff.mp inPart
    have below : key < middle := by simpa [isBelow] using below
    refine ⟨length, Bool.and_eq_true_iff.mpr ⟨above, isBelow_of_le highBelow ?_⟩⟩
    exact List.le_trans (List.le_of_lt below) notAbove
  · rintro ⟨-, inPart⟩
    have below : high < middle := by simpa [isBelow] using (Bool.and_eq_true_iff.mp inPart).2
    exact notAbove below

/-- From a key on that is above one of the range, the range has fewer keys. -/
theorem held_from (lowIn : low ∈ range.held columns) (above : low < middle) :
    ({ range with lower := .included middle } : KeyRange).held columns ⊂ range.held columns := by
  obtain ⟨lowLength, lowIn⟩ := lowIn
  obtain ⟨lowAbove, lowBelow⟩ := Bool.and_eq_true_iff.mp lowIn
  refine Set.ssubset_iff_exists.mpr ⟨?_, low, ⟨lowLength, lowIn⟩, ?_⟩
  · rintro key ⟨length, inPart⟩
    obtain ⟨fromMiddle, below⟩ := Bool.and_eq_true_iff.mp inPart
    have fromMiddle : middle ≤ key := by simpa [isAbove] using fromMiddle
    refine ⟨length, Bool.and_eq_true_iff.mpr ⟨isAbove_of_le lowAbove ?_, below⟩⟩
    exact List.le_trans (List.le_of_lt above) fromMiddle
  · rintro ⟨-, inPart⟩
    have fromMiddle : middle ≤ low := by simpa [isAbove] using (Bool.and_eq_true_iff.mp inPart).1
    exact fromMiddle above

end Parts

end KeyRange

/-! ## Views -/

/-- The number of tuples, or of keys with at most a given number of columns, that a view extends
over. -/
noncomputable def View.extent (columns : Nat) : View → Nat
  | .array tuples => tuples.length
  | .range keys _ => (keys.held columns).ncard

section Views

variable {arity columns : Nat} {index : Index} {limits : ViewLimits} {keys : KeyRange}

theorem Index.Valid.mem_held (valid : index.Valid arity)
    (fits : index.pattern.keyColumns.length ≤ columns) {entry : Entry}
    (member : entry ∈ index.entriesIn keys) : entry.key ∈ keys.held columns := by
  obtain ⟨inIndex, inRange⟩ := Index.mem_entriesIn.mp member
  exact ⟨(valid.key_length inIndex).le.trans fits, inRange⟩

theorem Index.Valid.length_entriesIn_le (valid : index.Valid arity)
    (fits : index.pattern.keyColumns.length ≤ columns) :
    (index.entriesIn keys).length ≤ (keys.held columns).ncard := by
  have distinct : ((index.entriesIn keys).map (·.key)).Nodup :=
    valid.nodup_keys.sublist (List.filter_sublist.map _)
  rw [← List.length_map (f := (·.key))]
  refine length_le_ncard distinct ?_ (KeyRange.finite_held columns keys)
  intro key member
  obtain ⟨entry, inRange, rfl⟩ := List.mem_map.mp member
  exact valid.mem_held fits inRange

theorem Index.Valid.extent_view_le (valid : index.Valid arity)
    (fits : index.pattern.keyColumns.length ≤ columns) :
    (index.view limits keys).extent columns ≤ (keys.held columns).ncard := by
  have whole : (index.entriesIn keys).length ≤ (keys.held columns).ncard :=
    valid.length_entriesIn_le fits
  unfold Index.view
  dsimp only
  split
  · simp only [View.extent, List.length_map, List.length_take]
    omega
  · exact Nat.le_refl _

theorem Split.extent_part_le (valid : index.Valid arity)
    (fits : index.pattern.keyColumns.length ≤ columns) (count : Nat) :
    (part index limits keys count).extent columns ≤ (keys.held columns).ncard := by
  unfold part
  split
  · exact valid.extent_view_le fits
  · exact Nat.le_refl _

/-- Both parts of a view extend less far than the view. -/
theorem View.extent_split_lt (valid : index.Valid arity)
    (fits : index.pattern.keyColumns.length ≤ columns) {view left right : View} {draws : Draws}
    (splitEq : (view.split index limits draws).1 = some (left, right)) :
    left.extent columns < view.extent columns ∧ right.extent columns < view.extent columns := by
  cases view with
  | array tuples =>
      simp only [split] at splitEq
      split at splitEq
      · cases splitEq
      · cases splitEq
        simp only [extent, List.length_take, List.length_drop]
        omega
  | range keys count =>
      obtain ⟨first, firstMember, last, lastMember, middle, between, counts, rfl, rfl⟩ :=
        exists_middle_of_split valid splitEq
      have lastLength := valid.key_length (Index.mem_entriesIn.mp lastMember).1
      obtain ⟨middleLength, -, notAbove⟩ := between
      rw [valid.key_length (Index.mem_entriesIn.mp firstMember).1] at middleLength
      have middleLe : middle.key ≤ last.key := by
        intro above
        have := (Key.lt_iff_rank_lt (lastLength.trans middleLength.symm)).mp above
        omega
      have below := KeyRange.held_below (valid.mem_held fits lastMember) middleLe
      obtain ⟨entry, entryMember⟩ := List.exists_mem_of_length_pos (counts.below_eq ▸ counts.pos)
      have entryIn := below.subset (valid.mem_held fits entryMember)
      have entryBelow : entry.key < middle.key := by
        have inPart := (Index.mem_entriesIn.mp entryMember).2
        simpa [KeyRange.isBelow] using (Bool.and_eq_true_iff.mp inPart).2
      have above := KeyRange.held_from entryIn entryBelow
      have finite := KeyRange.finite_held columns keys
      exact ⟨(Split.extent_part_le valid fits _).trans_lt (Set.ncard_lt_ncard below finite),
        (Split.extent_part_le valid fits _).trans_lt (Set.ncard_lt_ncard above finite)⟩

end Views

/-! ## Lookups -/

theorem Pattern.length_keyColumns_le (pattern : Pattern) :
    pattern.keyColumns.length ≤ pattern.length := by
  have counted : ∀ start : Nat,
      ((pattern.zipIdx start).filterMap fun column =>
          if column.1 = .bound then some column.2 else none).length +
        ((pattern.zipIdx start).filterMap fun column =>
          if column.1 = .free then some column.2 else none).length ≤ pattern.length := by
    induction pattern with
    | nil => simp
    | cons binding pattern ih =>
        intro start
        have rest := ih (start + 1)
        cases binding <;> simp at rest ⊢ <;> omega
  simpa [keyColumns, columns] using counted 0

/-- A lookup extends over no more keys than there are. -/
theorem FactStore.Valid.extent_get_le {store : FactStore} (valid : store.Valid)
    {symbol : RelationSymbol} {columns : Nat} (fits : symbol.arity ≤ columns) (number : Nat)
    (key : Key) : (store.get symbol number key).extent columns ≤ KeyRange.keyCount columns := by
  unfold FactStore.get
  split
  · next index indexEq =>
      have indexValid := valid.index_valid indexEq
      have columnsFit := index.pattern.length_keyColumns_le.trans (indexValid.arity_eq.le.trans fits)
      exact (indexValid.extent_view_le columnsFit).trans (KeyRange.ncard_held_le columns _)
  · exact Nat.zero_le _

/-! ## Numbers of tuples -/

namespace FactStore

variable {store later : FactStore} {symbol : RelationSymbol}

theorem Valid.countDistinct_le (valid : store.Valid) (symbol : RelationSymbol) :
    store.countDistinct symbol ≤ KeyRange.keyCount symbol.arity := by
  rw [countDistinct_eq_length]
  refine length_le_ncard (valid.nodup_tuples_masterOf symbol) (fun tuple member => ?_)
    (KeyRange.finite_held symbol.arity {})
  exact ⟨(valid.length_of_holds (mem_masterOf_tuples.mp member)).le, rfl⟩

theorem Grows.countDistinct_le (grown : later.Grows store) (valid : store.Valid)
    (symbol : RelationSymbol) : store.countDistinct symbol ≤ later.countDistinct symbol := by
  rw [countDistinct_eq_length, countDistinct_eq_length]
  refine ((valid.nodup_tuples_masterOf symbol).subperm fun tuple member => ?_).length_le
  exact mem_masterOf_tuples.mpr (grown.holds _ _ (mem_masterOf_tuples.mp member))

end FactStore

end Datalog
