import Datalog.Proofs.Store.StorePlan
import Mathlib.Data.List.Perm.Subperm
import Mathlib.Data.Finset.Card

/-!
# Which tuples an index keeps

Of the tuples that have been put into an index, the index keeps for every key the first one with that
key.  Without ignored columns a key belongs to one tuple only, so that such an index keeps them all;
this is also what the comparison of an index with the master of its relation looks at.
-/

namespace Datalog

namespace Pattern

variable {α : Type}

theorem ne_ignored_of_isProjection {pattern : Pattern} (complete : pattern.isProjection = false) :
    ∀ binding ∈ pattern, binding ≠ .ignored := by
  rintro binding member rfl
  simp [isProjection, member] at complete

/-- A row without ignored columns is determined by its bound and its free columns. -/
theorem eq_of_keep_eq {pattern : Pattern} (complete : ∀ binding ∈ pattern, binding ≠ .ignored)
    {row row' : List α} (length : row.length = pattern.length)
    (length' : row'.length = pattern.length)
    (sameBound : pattern.keepBound row = pattern.keepBound row')
    (sameFree : pattern.keepFree row = pattern.keepFree row') : row = row' := by
  induction pattern generalizing row row' with
  | nil => rw [List.length_eq_zero_iff.mp length, List.length_eq_zero_iff.mp length']
  | cons binding pattern ih =>
      obtain ⟨here, others⟩ := List.forall_mem_cons.mp complete
      cases row with
      | nil => simp at length
      | cons column row =>
          cases row' with
          | nil => simp at length'
          | cons column' row' =>
              have rest := @ih others row row' (by simpa using length) (by simpa using length')
              cases binding with
              | bound =>
                  obtain ⟨rfl, sameRest⟩ := by simpa [keepBound, keep] using sameBound
                  rw [rest sameRest (by simpa [keepFree, keep] using sameFree)]
              | free =>
                  obtain ⟨rfl, sameRest⟩ := by simpa [keepFree, keep] using sameFree
                  rw [rest (by simpa [keepBound, keep] using sameBound) sameRest]
              | ignored => exact absurd rfl here

theorem keyOf_injective {pattern : Pattern} (complete : pattern.isProjection = false)
    {first second : Tuple} (length : first.length = pattern.length)
    (length' : second.length = pattern.length) (same : pattern.keyOf first = pattern.keyOf second) :
    first = second := by
  rw [keyOf_eq length, keyOf_eq length'] at same
  obtain ⟨sameBound, sameFree⟩ := List.append_inj same (length_keep length length')
  exact eq_of_keep_eq (ne_ignored_of_isProjection complete) length length' sameBound sameFree

end Pattern

namespace Index

variable {arity : Nat} {index : Index} {history : List Tuple}

theorem addSorted?_eq_none_iff {entry : Entry} {entries : List Entry} {length : Nat}
    (lengths : ∀ other ∈ entries, other.key.length = length) (entryLength : entry.key.length = length)
    (sorted : entries.Pairwise fun first second => first.key < second.key) :
    addSorted? entry entries = none ↔ ∃ other ∈ entries, other.key = entry.key := by
  refine ⟨exists_key_of_addSorted?, ?_⟩
  rintro ⟨other, member, same⟩
  induction entries with
  | nil => simp at member
  | cons head entries ih =>
      obtain ⟨headBelow, tailSorted⟩ := List.pairwise_cons.mp sorted
      obtain ⟨headLength, tailLengths⟩ := List.forall_mem_cons.mp lengths
      have sameLength := entryLength.trans headLength.symm
      rcases List.mem_cons.mp member with rfl | member
      · have notLess : ¬ entry.key < other.key := same ▸ Key.lt_irrefl entry.key
        rw [addSorted?, if_neg notLess, if_pos same.symm]
      · have less := headBelow other member
        rw [same, Key.lt_iff_rank_lt sameLength.symm] at less
        have notLess : ¬ entry.key < head.key := by
          rw [Key.lt_iff_rank_lt sameLength]
          omega
        have notSame : entry.key ≠ head.key := fun same => by
          rw [same] at less
          omega
        rw [addSorted?, if_neg notLess, if_neg notSame, ih tailLengths tailSorted member,
          Option.map_none]

theorem Valid.insert_eq_self (valid : index.Valid arity) {tuple : Tuple}
    (taken : ∃ entry ∈ index.entries, entry.key = index.pattern.keyOf tuple) :
    index.insert tuple = (false, index) := by
  have refused : addSorted? (index.entryOf tuple) index.entries = none :=
    (addSorted?_eq_none_iff (fun _ member => valid.key_length member)
      (Pattern.length_keyOf _ _) valid.sorted).mpr taken
  simp [Index.insert, refused]

theorem Valid.insertAll_eq_self (valid : index.Valid arity) {tuples : List Tuple}
    (taken : ∀ tuple ∈ tuples, ∃ entry ∈ index.entries, entry.key = index.pattern.keyOf tuple) :
    index.insertAll tuples = (0, index) := by
  induction tuples with
  | nil => rfl
  | cons tuple tuples ih =>
      obtain ⟨here, others⟩ := List.forall_mem_cons.mp taken
      simp [Index.insertAll, valid.insert_eq_self here, ih others]

/-! ## The first tuple with a key -/

/-- Of the tuples that have been put in, an index holds the first with each key. -/
def KeepsFirst (index : Index) (history : List Tuple) : Prop :=
  ∀ entry, entry ∈ index.entries ↔
    history.find? (index.pattern.keyOf · = entry.key) = some entry.tuple

theorem keepsFirst_nil (empty : index.entries = []) : index.KeepsFirst [] := by
  simp [KeepsFirst, empty]

theorem KeepsFirst.exists_key_iff (keeps : index.KeepsFirst history) {key : Key} :
    (∃ entry ∈ index.entries, entry.key = key) ↔
      ∃ tuple ∈ history, index.pattern.keyOf tuple = key := by
  constructor
  · rintro ⟨entry, member, rfl⟩
    have found := (keeps entry).mp member
    exact ⟨entry.tuple, List.mem_of_find?_eq_some found, by simpa using List.find?_some found⟩
  · rintro ⟨tuple, member, rfl⟩
    obtain ⟨first, found⟩ := Option.isSome_iff_exists.mp
      (List.find?_isSome (p := (index.pattern.keyOf · = index.pattern.keyOf tuple)).mpr
        ⟨tuple, member, by simp⟩)
    exact ⟨⟨index.pattern.keyOf tuple, first⟩, (keeps _).mpr found, rfl⟩

theorem KeepsFirst.concat_of_taken (keeps : index.KeepsFirst history) {tuple : Tuple}
    (taken : ∃ entry ∈ index.entries, entry.key = index.pattern.keyOf tuple) :
    index.KeepsFirst (history ++ [tuple]) := by
  intro entry
  rw [keeps entry, List.find?_append]
  cases found : history.find? (index.pattern.keyOf · = entry.key) with
  | some first => rw [Option.some_or]
  | none =>
      -- The key of the new tuple is taken, so that another tuple with this key came before.
      have apart : index.pattern.keyOf tuple ≠ entry.key := fun same => by
        obtain ⟨old, member, oldKey⟩ := keeps.exists_key_iff.mp taken
        simpa [oldKey, same] using List.find?_eq_none.mp found old member
      simp [apart]

theorem KeepsFirst.insert_of_new (keeps : index.KeepsFirst history) {tuple : Tuple}
    (isNew : ¬ ∃ entry ∈ index.entries, entry.key = index.pattern.keyOf tuple) :
    (index.insert tuple).2.KeepsFirst (history ++ [tuple]) := by
  intro entry
  have members : entry ∈ (index.insert tuple).2.entries ↔
      entry = index.entryOf tuple ∨ entry ∈ index.entries := by
    cases addedEq : addSorted? (index.entryOf tuple) index.entries with
    | none => exact absurd (exists_key_of_addSorted? addedEq) isNew
    | some added => simp [Index.insert, addedEq, mem_of_addSorted? addedEq]
  rw [members, pattern_insert, List.find?_append, keeps entry]
  by_cases here : index.pattern.keyOf tuple = entry.key
  · have unseen : history.find? (index.pattern.keyOf · = entry.key) = none := by
      rw [List.find?_eq_none]
      intro old member same
      exact isNew (keeps.exists_key_iff.mpr ⟨old, member, by simpa [here] using same⟩)
    have entryIff : entry = index.entryOf tuple ↔ tuple = entry.tuple := by
      obtain ⟨key, held⟩ := entry
      simp [entryOf, eq_comm, show key = index.pattern.keyOf tuple from here.symm]
    simp [unseen, here, entryIff]
  · have apart : entry ≠ index.entryOf tuple := by
      rintro rfl
      exact here rfl
    simp [here, apart]

theorem KeepsFirst.insert (keeps : index.KeepsFirst history) (valid : index.Valid arity)
    (tuple : Tuple) : (index.insert tuple).2.KeepsFirst (history ++ [tuple]) := by
  by_cases taken : ∃ entry ∈ index.entries, entry.key = index.pattern.keyOf tuple
  · rw [valid.insert_eq_self taken]
    exact keeps.concat_of_taken taken
  · exact keeps.insert_of_new taken

theorem KeepsFirst.insertAll (keeps : index.KeepsFirst history) (valid : index.Valid arity)
    {tuples : List Tuple} (lengths : ∀ tuple ∈ tuples, tuple.length = arity) :
    (index.insertAll tuples).2.KeepsFirst (history ++ tuples) := by
  induction tuples generalizing index history with
  | nil => simpa [Index.insertAll] using keeps
  | cons tuple tuples ih =>
      obtain ⟨length, lengths⟩ := List.forall_mem_cons.mp lengths
      have later := ih (keeps.insert valid tuple) (valid.insert length) lengths
      rwa [List.append_assoc, List.singleton_append] at later

/-- An index that reads every column holds exactly what has been put in. -/
theorem KeepsFirst.mem_tuples_iff (keeps : index.KeepsFirst history) (valid : index.Valid arity)
    (allFree : index.pattern.isAllFree = true)
    (lengths : ∀ tuple ∈ history, tuple.length = arity) {tuple : Tuple} :
    tuple ∈ index.tuples ↔ tuple ∈ history := by
  constructor
  · intro member
    obtain ⟨entry, entryMember, rfl⟩ := List.mem_map.mp member
    exact List.mem_of_find?_eq_some ((keeps entry).mp entryMember)
  · intro member
    exact (valid.mem_tuples_iff allFree (lengths tuple member)).mpr
      (keeps.exists_key_iff.mpr ⟨tuple, member, rfl⟩)

end Index

namespace Relation

variable {arity : Nat} {relation : Relation}

/-! ## Known tuples -/

theorem Valid.extend_eq_self (valid : relation.Valid arity) {tuples : List Tuple}
    (known : ∀ tuple ∈ tuples, tuple ∈ relation.masterIndex.tuples) :
    relation.extend tuples = relation := by
  have unchanged : ∀ index ∈ relation.indices, (index.insertAll tuples).2 = index :=
    fun index member => by
      rw [(valid.indices_valid index member).insertAll_eq_self fun tuple tupleMember =>
        valid.complete index member tuple (known tuple tupleMember)]
  rw [Relation.extend, List.map_congr_left unchanged, List.map_id']

/-- Adding tuples puts all of them into every index, also where it stops early because none of them
is new. -/
theorem Valid.addAll_eq_extend (valid : relation.Valid arity) {tuples : List Tuple}
    (lengths : ∀ tuple ∈ tuples, tuple.length = arity) :
    (relation.addAll tuples).2 = relation.extend tuples := by
  unfold Relation.addAll
  split
  · next none =>
      refine (valid.extend_eq_self fun tuple member => ?_).symm
      exact (valid.masterIndex_valid.mem_tuples_iff valid.masterIndex_allFree
        (lengths tuple member)).mpr (Index.insertAll_eq_zero none tuple member)
  · rfl

theorem Valid.add_eq_extend (valid : relation.Valid arity) {tuple : Tuple}
    (length : tuple.length = arity) : (relation.add tuple).2 = relation.extend [tuple] := by
  unfold Relation.add
  split
  · next present =>
      exact (valid.extend_eq_self (by simpa using (valid.contains_iff length).mp present)).symm
  · rfl

/-- The answer to adding tuples is the number of different ones that are new. -/
theorem Added.count_eq {later : Relation} {tuples : List Tuple} {count : Nat}
    (added : Added arity relation later tuples count) (valid : relation.Valid arity) :
    count = (tuples.toFinset \ relation.masterIndex.tuples.toFinset).card := by
  have distinct := valid.masterIndex_valid.nodup_tuples
  have distinctLater := added.valid.masterIndex_valid.nodup_tuples
  have united : later.masterIndex.tuples.toFinset =
      tuples.toFinset ∪ relation.masterIndex.tuples.toFinset := by
    ext tuple
    simp [added.mem_tuples, or_comm]
  have sizeOf : ∀ index : Index, index.size = index.tuples.length := fun index => by
    simp [Index.size, Index.tuples]
  have size := added.size
  rw [sizeOf, sizeOf, ← List.toFinset_card_of_nodup distinct,
    ← List.toFinset_card_of_nodup distinctLater, united, ← Finset.card_sdiff_add_card] at size
  omega

/-! ## Agreement with the master -/

theorem Valid.tuples_subset (valid : relation.Valid arity) {index : Index}
    (member : index ∈ relation.indices) : index.tuples ⊆ relation.masterIndex.tuples := by
  intro tuple tupleMember
  obtain ⟨entry, entryMember, rfl⟩ := List.mem_map.mp tupleMember
  exact valid.sound index member entry entryMember

theorem Valid.size_le (valid : relation.Valid arity) {index : Index}
    (member : index ∈ relation.indices) : index.size ≤ relation.masterIndex.size := by
  have distinct := (valid.indices_valid index member).nodup_tuples
  simpa [Index.size, Index.tuples] using
    (distinct.subperm (valid.tuples_subset member)).length_le

theorem Valid.tuples_perm (valid : relation.Valid arity) {index : Index}
    (member : index ∈ relation.indices) (complete : index.pattern.isProjection = false) :
    index.tuples.Perm relation.masterIndex.tuples := by
  have indexValid := valid.indices_valid index member
  refine (List.perm_ext_iff_of_nodup indexValid.nodup_tuples
    valid.masterIndex_valid.nodup_tuples).mpr fun tuple =>
      ⟨fun held => valid.tuples_subset member held, fun held => ?_⟩
  obtain ⟨entry, entryMember, same⟩ := valid.complete index member tuple held
  obtain ⟨master, masterMember, rfl⟩ := List.mem_map.mp held
  rw [indexValid.keyed entry entryMember] at same
  have lengthOf : ∀ {other : Tuple}, other.length = arity → other.length = index.pattern.length :=
    fun length => length.trans indexValid.arity_eq.symm
  have := Pattern.keyOf_injective complete
    (lengthOf (indexValid.tuple_length entry entryMember))
    (lengthOf (valid.masterIndex_valid.tuple_length master masterMember)) same
  exact List.mem_map.mpr ⟨entry, entryMember, this⟩

theorem Valid.disagreement?_eq_none (valid : relation.Valid arity) (symbol : RelationSymbol)
    {index : Index} (member : index ∈ relation.indices) :
    FactStore.disagreement? symbol relation.masterIndex index = none := by
  have nothingMissing : (relation.masterIndex.tuples.any fun tuple => !index.contains tuple) = false := by
    refine List.any_eq_false.mpr fun tuple held => ?_
    simpa [Index.contains] using valid.complete index member tuple held
  have notLarger := valid.size_le member
  simp only [FactStore.disagreement?, nothingMissing]
  split
  · simpa using notLarger
  · next complete =>
      have sameSize := (valid.tuples_perm member (by simpa using complete)).length_eq
      simp only [Index.tuples, List.length_map] at sameSize
      simp [Index.size, sameSize]

end Relation

end Datalog
