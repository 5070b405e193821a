import Datalog.Proofs.Store.Key

/-!
# Valid indices

In a valid index every entry stands under the key of its tuple and the keys increase.  The key
consists of the bound columns followed by the free ones.  Adding a tuple keeps an index valid; it adds
the entry of the tuple unless the key is taken.
-/

namespace Datalog

namespace Pattern

variable {α β : Type}

/-- The columns of a row whose treatment is wanted, in order. -/
def keep (wanted : Binding → Bool) : Pattern → List α → List α
  | binding :: pattern, column :: row =>
      if wanted binding then column :: keep wanted pattern row else keep wanted pattern row
  | _, _ => []

def keepBound (pattern : Pattern) (row : List α) : List α :=
  pattern.keep (· = .bound) row

def keepFree (pattern : Pattern) (row : List α) : List α :=
  pattern.keep (· = .free) row

theorem mem_keep {wanted : Binding → Bool} {pattern : Pattern} {row : List α} {column : α} :
    column ∈ pattern.keep wanted row ↔
      ∃ binding, wanted binding = true ∧ (column, binding) ∈ row.zip pattern := by
  induction pattern generalizing row with
  | nil => simp [keep]
  | cons binding pattern ih =>
      cases row with
      | nil => simp [keep]
      | cons first row =>
          simp only [keep, List.zip_cons_cons, List.mem_cons, Prod.mk.injEq]
          split
          · next isWanted =>
              rw [List.mem_cons, ih]
              constructor
              · rintro (rfl | ⟨other, otherWanted, member⟩)
                · exact ⟨binding, isWanted, .inl ⟨rfl, rfl⟩⟩
                · exact ⟨other, otherWanted, .inr member⟩
              · rintro ⟨other, otherWanted, ⟨rfl, -⟩ | member⟩
                · exact .inl rfl
                · exact .inr ⟨other, otherWanted, member⟩
          · next isUnwanted =>
              rw [ih]
              constructor
              · rintro ⟨other, otherWanted, member⟩
                exact ⟨other, otherWanted, .inr member⟩
              · rintro ⟨other, otherWanted, ⟨-, rfl⟩ | member⟩
                · exact absurd otherWanted isUnwanted
                · exact ⟨other, otherWanted, member⟩

theorem mem_keepBound {pattern : Pattern} {row : List α} {column : α} :
    column ∈ pattern.keepBound row ↔ (column, .bound) ∈ row.zip pattern := by
  simp [keepBound, mem_keep]

theorem keepFree_eq_nil {pattern : Pattern} (noFree : ∀ binding ∈ pattern, binding ≠ .free)
    (row : List α) : pattern.keepFree row = [] := by
  refine List.eq_nil_iff_forall_not_mem.mpr fun column member => ?_
  obtain ⟨binding, isFree, pair⟩ := mem_keep.mp member
  exact noFree binding (List.of_mem_zip pair).2 (by simpa using isFree)

theorem length_keep {wanted : Binding → Bool} {pattern : Pattern} {row : List α} {row' : List β}
    (length : row.length = pattern.length) (length' : row'.length = pattern.length) :
    (pattern.keep wanted row).length = (pattern.keep wanted row').length := by
  induction pattern generalizing row row' with
  | nil => simp [keep]
  | cons binding pattern ih =>
      cases row with
      | nil => simp at length
      | cons column row =>
          cases row' with
          | nil => simp at length'
          | cons column' row' =>
              have rowLength : row.length = pattern.length := by simpa using length
              have rowLength' : row'.length = pattern.length := by simpa using length'
              have := ih rowLength rowLength'
              simp only [keep]
              split
              · simpa using this
              · exact this

theorem zip_filterMap_eq_keepBound (pattern : Pattern) (row : List α) :
    (row.zip pattern).filterMap (fun (column, binding) =>
      if binding = .bound then some column else none) = pattern.keepBound row := by
  induction pattern generalizing row with
  | nil => simp [keepBound, keep]
  | cons binding pattern ih =>
      cases row with
      | nil => simp [keepBound, keep]
      | cons column row =>
          by_cases bound : binding = .bound
          · simpa [keepBound, keep, bound] using ih row
          · simpa [keepBound, keep, bound] using ih row

/-- Looking columns up by their numbers is the same as walking along the row. -/
private theorem map_columns_eq (wanted : Binding) (pattern : Pattern) (front back : Tuple)
    (length : back.length = pattern.length) :
    ((pattern.zipIdx front.length).filterMap (fun (binding, column) =>
        if binding = wanted then some column else none)).map
      (fun column => (front ++ back)[column]?.getD default) = pattern.keep (· = wanted) back := by
  induction pattern generalizing front back with
  | nil => simp [keep]
  | cons binding pattern ih =>
      cases back with
      | nil => simp at length
      | cons id back =>
          have rest := ih (front ++ [id]) back (by simpa using length)
          simp only [List.length_append, List.length_singleton, List.append_assoc,
            List.singleton_append] at rest
          by_cases here : binding = wanted
          · simp [here, keep, rest]
          · simp [here, keep, rest]

theorem keyOf_eq {pattern : Pattern} {tuple : Tuple} (length : tuple.length = pattern.length) :
    pattern.keyOf tuple = pattern.keepBound tuple ++ pattern.keepFree tuple := by
  have columnsOf := fun wanted => map_columns_eq wanted pattern [] tuple length
  simp only [List.length_nil, List.nil_append] at columnsOf
  simp only [keyOf, keyColumns, columns, List.map_append, keepBound, keepFree]
  rw [columnsOf, columnsOf]

theorem length_keyOf (pattern : Pattern) (tuple : Tuple) :
    (pattern.keyOf tuple).length = pattern.keyColumns.length := by
  simp [keyOf]

theorem isAllFree_cons {binding : Binding} {pattern : Pattern} :
    isAllFree (binding :: pattern) = true ↔ binding = .free ∧ pattern.isAllFree = true := by
  simp [isAllFree]

theorem keepBound_of_isAllFree {pattern : Pattern} (allFree : pattern.isAllFree = true)
    (row : List α) : pattern.keepBound row = [] := by
  induction pattern generalizing row with
  | nil => simp [keepBound, keep]
  | cons binding pattern ih =>
      obtain ⟨rfl, others⟩ := isAllFree_cons.mp allFree
      cases row with
      | nil => simp [keepBound, keep]
      | cons column row => simpa [keepBound, keep] using ih others row

theorem keepFree_of_isAllFree {pattern : Pattern} (allFree : pattern.isAllFree = true)
    {row : List α} (length : row.length = pattern.length) : pattern.keepFree row = row := by
  induction pattern generalizing row with
  | nil => simp [keepFree, keep, List.length_eq_zero_iff.mp length]
  | cons binding pattern ih =>
      obtain ⟨rfl, others⟩ := isAllFree_cons.mp allFree
      cases row with
      | nil => simp at length
      | cons column row => simpa [keepFree, keep] using ih others (by simpa using length)

/-- A pattern that reads every column has the whole tuple as its key. -/
theorem keyOf_of_isAllFree {pattern : Pattern} {tuple : Tuple}
    (allFree : pattern.isAllFree = true) (length : tuple.length = pattern.length) :
    pattern.keyOf tuple = tuple := by
  rw [keyOf_eq length, keepBound_of_isAllFree allFree, keepFree_of_isAllFree allFree length,
    List.nil_append]

end Pattern

namespace Index

/-- Every entry stands under the key of its tuple, and the keys increase. -/
structure Valid (arity : Nat) (index : Index) : Prop where
  arity_eq : index.pattern.length = arity
  keyed : ∀ entry ∈ index.entries, entry.key = index.pattern.keyOf entry.tuple
  sorted : index.entries.Pairwise fun first second => first.key < second.key
  tuple_length : ∀ entry ∈ index.entries, entry.tuple.length = arity

variable {arity : Nat} {index : Index}

theorem Valid.key_length (valid : index.Valid arity) {entry : Entry}
    (member : entry ∈ index.entries) : entry.key.length = index.pattern.keyColumns.length := by
  rw [valid.keyed entry member, Pattern.length_keyOf]

/-- Tuples that are listed in the order of the entries have increasing keys. -/
theorem Valid.sorted_tuples (valid : index.Valid arity) {entries : List Entry}
    (listed : entries.Sublist index.entries) :
    (entries.map (·.tuple)).Pairwise fun first second =>
      index.pattern.keyOf first < index.pattern.keyOf second := by
  rw [List.pairwise_map]
  refine (valid.sorted.sublist listed).imp_of_mem fun {first second} inFirst inSecond less => ?_
  rwa [← valid.keyed first (listed.subset inFirst), ← valid.keyed second (listed.subset inSecond)]

/-- The last of some entries has the largest key. -/
theorem Valid.rank_le_getLast (valid : index.Valid arity) {entries : List Entry}
    (listed : entries.Sublist index.entries) {entry last : Entry} (member : entry ∈ entries)
    (lastEq : entries.getLast? = some last) : Key.rank entry.key ≤ Key.rank last.key := by
  obtain ⟨front, rfl⟩ := List.getLast?_eq_some_iff.mp lastEq
  have sorted := valid.sorted.sublist listed
  rcases List.mem_append.mp member with earlier | final
  · have less := (List.pairwise_append.mp sorted).2.2 entry earlier last (by simp)
    have sameLength : entry.key.length = last.key.length := by
      rw [valid.key_length (listed.subset member), valid.key_length (listed.subset (by simp))]
    exact ((Key.lt_iff_rank_lt sameLength).mp less).le
  · rw [List.mem_singleton.mp final]

theorem valid_empty {pattern : Pattern} (length : pattern.length = arity) :
    Valid arity { pattern } where
  arity_eq := length
  keyed := by simp
  sorted := List.Pairwise.nil
  tuple_length := by simp

theorem valid_clear (valid : index.Valid arity) : index.clear.Valid arity :=
  valid_empty valid.arity_eq

/-! ## Adding entries -/

theorem mem_of_addSorted? {entry : Entry} {entries added : List Entry}
    (addedEq : addSorted? entry entries = some added) (other : Entry) :
    other ∈ added ↔ other = entry ∨ other ∈ entries := by
  induction entries generalizing added with
  | nil =>
      simp only [addSorted?, Option.some.injEq] at addedEq
      simp [← addedEq]
  | cons head entries ih =>
      unfold addSorted? at addedEq
      split at addedEq
      · simp only [Option.some.injEq] at addedEq
        simp [← addedEq]
      · split at addedEq
        · simp at addedEq
        · obtain ⟨rest, restEq, rfl⟩ := Option.map_eq_some_iff.mp addedEq
          simp only [List.mem_cons, ih restEq]
          exact or_left_comm

theorem length_of_addSorted? {entry : Entry} {entries added : List Entry}
    (addedEq : addSorted? entry entries = some added) : added.length = entries.length + 1 := by
  induction entries generalizing added with
  | nil =>
      simp only [addSorted?, Option.some.injEq] at addedEq
      simp [← addedEq]
  | cons head entries ih =>
      unfold addSorted? at addedEq
      split at addedEq
      · simp only [Option.some.injEq] at addedEq
        simp [← addedEq]
      · split at addedEq
        · simp at addedEq
        · obtain ⟨rest, restEq, rfl⟩ := Option.map_eq_some_iff.mp addedEq
          simp [ih restEq]

/-- An entry is refused if its key is taken. -/
theorem exists_key_of_addSorted? {entry : Entry} {entries : List Entry}
    (refused : addSorted? entry entries = none) : ∃ other ∈ entries, other.key = entry.key := by
  induction entries with
  | nil => simp [addSorted?] at refused
  | cons head entries ih =>
      unfold addSorted? at refused
      split at refused
      · simp at refused
      · split at refused
        · next same => exact ⟨head, List.mem_cons_self, same.symm⟩
        · obtain ⟨other, member, same⟩ := ih (by simpa using refused)
          exact ⟨other, List.mem_cons_of_mem _ member, same⟩

theorem sorted_of_addSorted? {entry : Entry} {entries added : List Entry} {length : Nat}
    (lengths : ∀ other ∈ entries, other.key.length = length) (entryLength : entry.key.length = length)
    (sorted : entries.Pairwise fun first second => first.key < second.key)
    (addedEq : addSorted? entry entries = some added) :
    added.Pairwise fun first second => first.key < second.key := by
  induction entries generalizing added with
  | nil =>
      simp only [addSorted?, Option.some.injEq] at addedEq
      simp [← addedEq]
  | cons head entries ih =>
      obtain ⟨headBelow, tailSorted⟩ := List.pairwise_cons.mp sorted
      have tailLengths : ∀ other ∈ entries, other.key.length = length := fun other member =>
        lengths other (List.mem_cons_of_mem _ member)
      have headLength := lengths head List.mem_cons_self
      unfold addSorted? at addedEq
      split at addedEq
      · next below =>
          simp only [Option.some.injEq] at addedEq
          rw [← addedEq, List.pairwise_cons]
          refine ⟨fun other member => ?_, sorted⟩
          rcases List.mem_cons.mp member with rfl | member
          · exact below
          · have above := headBelow other member
            rw [Key.lt_iff_rank_lt (by rw [headLength, tailLengths other member])] at above
            rw [Key.lt_iff_rank_lt (by rw [entryLength, headLength])] at below
            rw [Key.lt_iff_rank_lt (by rw [entryLength, tailLengths other member])]
            omega
      · next notBelow =>
          split at addedEq
          · simp at addedEq
          · next notSame =>
              obtain ⟨rest, restEq, rfl⟩ := Option.map_eq_some_iff.mp addedEq
              rw [List.pairwise_cons]
              refine ⟨fun other member => ?_, ih tailLengths tailSorted restEq⟩
              rcases (mem_of_addSorted? restEq other).mp member with rfl | member
              · have sameLength : other.key.length = head.key.length := by
                  rw [entryLength, headLength]
                rw [Key.lt_iff_rank_lt sameLength] at notBelow
                rw [Key.lt_iff_rank_lt sameLength.symm]
                have := mt (Key.rank_injective sameLength) notSame
                omega
              · exact headBelow other member

/-! ## Adding tuples -/

theorem pattern_insert (index : Index) (tuple : Tuple) :
    (index.insert tuple).2.pattern = index.pattern := by
  unfold insert
  split <;> rfl

theorem Valid.insert (valid : index.Valid arity) {tuple : Tuple} (length : tuple.length = arity) :
    (index.insert tuple).2.Valid arity := by
  unfold Index.insert
  split
  · next added addedEq =>
      have members := mem_of_addSorted? addedEq
      refine ⟨valid.arity_eq, fun other member => ?_, ?_, fun other member => ?_⟩
      · rcases (members other).mp member with rfl | member
        · rfl
        · exact valid.keyed other member
      · exact sorted_of_addSorted? (fun other member => valid.key_length member)
          (Pattern.length_keyOf _ _) valid.sorted addedEq
      · rcases (members other).mp member with rfl | member
        · exact length
        · exact valid.tuple_length other member
  · exact valid

/-- The entries are kept, and a new one is that of the tuple. -/
theorem mem_entries_insert {tuple : Tuple} {entry : Entry} :
    (entry ∈ index.entries → entry ∈ (index.insert tuple).2.entries) ∧
      (entry ∈ (index.insert tuple).2.entries →
        entry ∈ index.entries ∨ entry = index.entryOf tuple) := by
  unfold insert
  split
  · next added addedEq =>
      exact ⟨fun member => (mem_of_addSorted? addedEq entry).mpr (.inr member),
        fun member => ((mem_of_addSorted? addedEq entry).mp member).symm⟩
  · exact ⟨id, .inl⟩

theorem exists_entry_insert (index : Index) (tuple : Tuple) :
    ∃ entry ∈ (index.insert tuple).2.entries, entry.key = index.pattern.keyOf tuple := by
  unfold insert
  split
  · next added addedEq =>
      exact ⟨_, (mem_of_addSorted? addedEq _).mpr (.inl rfl), rfl⟩
  · next refused => exact exists_key_of_addSorted? refused

theorem size_insert (index : Index) (tuple : Tuple) :
    (index.insert tuple).2.size = index.size + if (index.insert tuple).1 then 1 else 0 := by
  unfold insert size
  split
  · next added addedEq => simp [length_of_addSorted? addedEq]
  · simp

theorem pattern_insertAll (index : Index) (tuples : List Tuple) :
    (index.insertAll tuples).2.pattern = index.pattern := by
  induction tuples generalizing index with
  | nil => rfl
  | cons tuple tuples ih => exact (ih _).trans (pattern_insert index tuple)

theorem Valid.insertAll (valid : index.Valid arity) {tuples : List Tuple}
    (lengths : ∀ tuple ∈ tuples, tuple.length = arity) :
    (index.insertAll tuples).2.Valid arity := by
  induction tuples generalizing index with
  | nil => exact valid
  | cons tuple tuples ih =>
      obtain ⟨length, lengths⟩ := List.forall_mem_cons.mp lengths
      exact ih (valid.insert length) lengths

theorem mem_entries_insertAll {tuples : List Tuple} {entry : Entry} :
    (entry ∈ index.entries → entry ∈ (index.insertAll tuples).2.entries) ∧
      (entry ∈ (index.insertAll tuples).2.entries →
        entry ∈ index.entries ∨ ∃ tuple ∈ tuples, entry = index.entryOf tuple) := by
  induction tuples generalizing index with
  | nil => exact ⟨id, .inl⟩
  | cons tuple tuples ih =>
      obtain ⟨kept, new⟩ := @ih (index.insert tuple).2
      refine ⟨fun member => kept (mem_entries_insert.1 member), fun member => ?_⟩
      rcases new member with member | ⟨other, otherMember, rfl⟩
      · rcases mem_entries_insert.2 member with member | rfl
        · exact .inl member
        · exact .inr ⟨tuple, List.mem_cons_self, rfl⟩
      · refine .inr ⟨other, List.mem_cons_of_mem _ otherMember, ?_⟩
        simp [entryOf, pattern_insert]

theorem exists_entry_insertAll (index : Index) {tuples : List Tuple} {tuple : Tuple}
    (member : tuple ∈ tuples) :
    ∃ entry ∈ (index.insertAll tuples).2.entries, entry.key = index.pattern.keyOf tuple := by
  induction tuples generalizing index with
  | nil => simp at member
  | cons first tuples ih =>
      rcases List.mem_cons.mp member with rfl | member
      · obtain ⟨entry, present, keyEq⟩ := exists_entry_insert index tuple
        have kept : entry ∈ ((index.insert tuple).2.insertAll tuples).2.entries :=
          mem_entries_insertAll.1 present
        exact ⟨entry, kept, keyEq⟩
      · have := ih (index.insert first).2 member
        rwa [pattern_insert] at this

theorem size_insertAll (index : Index) (tuples : List Tuple) :
    (index.insertAll tuples).2.size = index.size + (index.insertAll tuples).1 := by
  induction tuples generalizing index with
  | nil => rfl
  | cons tuple tuples ih =>
      have first := size_insert index tuple
      have others := ih (index.insert tuple).2
      simp only [insertAll]
      rw [others, first]
      split <;> omega

end Index

end Datalog
