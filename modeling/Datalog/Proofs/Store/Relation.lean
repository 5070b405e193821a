import Datalog.Proofs.Store.View
import Datalog.Store.FactStore
import Mathlib.Data.List.Nodup

/-!
# Valid relations

The indices of a valid relation agree with its master: their tuples are tuples of the master, and for
every tuple of the master they hold an entry with its key.  Adding tuples keeps a relation valid, and
the master then holds the old tuples and the new ones.
-/

namespace Datalog

namespace Index

variable {arity : Nat} {index : Index}

/-- Adding tuples whose keys are all taken changes nothing. -/
theorem insertAll_eq_zero {tuples : List Tuple} (none : (index.insertAll tuples).1 = 0) :
    ∀ tuple ∈ tuples, ∃ entry ∈ index.entries, entry.key = index.pattern.keyOf tuple := by
  induction tuples generalizing index with
  | nil => simp
  | cons tuple tuples ih =>
      simp only [insertAll] at none
      cases insertEq : addSorted? (index.entryOf tuple) index.entries with
      | some added => simp [insert, insertEq] at none
      | none =>
          have unchanged : index.insert tuple = (false, index) := by simp [insert, insertEq]
          rw [unchanged] at none
          exact List.forall_mem_cons.mpr ⟨exists_key_of_addSorted? insertEq, ih none⟩

theorem grows_insert (index : Index) (tuple : Tuple) : (index.insert tuple).2.Grows index :=
  ⟨pattern_insert index tuple, fun _ => mem_entries_insert.1⟩

theorem grows_insertAll (index : Index) (tuples : List Tuple) :
    (index.insertAll tuples).2.Grows index :=
  ⟨pattern_insertAll index tuples, fun _ member => mem_entries_insertAll.1 member⟩

/-- An index that reads every column has the tuples themselves as keys. -/
theorem Valid.key_eq_tuple (valid : index.Valid arity) (allFree : index.pattern.isAllFree = true)
    {entry : Entry} (member : entry ∈ index.entries) : entry.key = entry.tuple := by
  have length := valid.tuple_length entry member
  rw [valid.keyed entry member,
    Pattern.keyOf_of_isAllFree allFree (length.trans valid.arity_eq.symm)]

/-- The key of a tuple is present in an index that reads every column if the tuple is. -/
theorem Valid.mem_tuples_iff (valid : index.Valid arity)
    (allFree : index.pattern.isAllFree = true) {tuple : Tuple} (length : tuple.length = arity) :
    tuple ∈ index.tuples ↔ ∃ entry ∈ index.entries, entry.key = index.pattern.keyOf tuple := by
  rw [Pattern.keyOf_of_isAllFree allFree (length.trans valid.arity_eq.symm)]
  constructor
  · intro member
    obtain ⟨entry, entryMember, rfl⟩ := List.mem_map.mp member
    exact ⟨entry, entryMember, valid.key_eq_tuple allFree entryMember⟩
  · rintro ⟨entry, entryMember, keyEq⟩
    rw [valid.key_eq_tuple allFree entryMember] at keyEq
    exact List.mem_map.mpr ⟨entry, entryMember, keyEq⟩

theorem Valid.nodup_keys (valid : index.Valid arity) : (index.entries.map (·.key)).Nodup := by
  rw [List.Nodup, List.pairwise_map]
  refine valid.sorted.imp fun {first second} less same => ?_
  rw [same] at less
  exact Key.lt_irrefl _ less

theorem Valid.nodup_tuples (valid : index.Valid arity) : index.tuples.Nodup := by
  refine List.Nodup.of_map index.pattern.keyOf ?_
  have keys : index.tuples.map index.pattern.keyOf = index.entries.map (·.key) := by
    rw [tuples, List.map_map]
    exact List.map_congr_left fun entry member => (valid.keyed entry member).symm
  rw [keys]
  exact valid.nodup_keys

end Index

namespace Relation

/-- The indices agree with the master. -/
structure Valid (arity : Nat) (relation : Relation) : Prop where
  master_allFree : ∃ index, relation.indices[relation.master]? = some index ∧
    index.pattern.isAllFree = true
  indices_valid : ∀ index ∈ relation.indices, index.Valid arity
  sound : ∀ index ∈ relation.indices, ∀ entry ∈ index.entries,
    entry.tuple ∈ relation.masterIndex.tuples
  complete : ∀ index ∈ relation.indices, ∀ tuple ∈ relation.masterIndex.tuples,
    ∃ entry ∈ index.entries, entry.key = index.pattern.keyOf tuple

variable {arity : Nat} {relation : Relation}

theorem masterIndex_eq {index : Index} (atMaster : relation.indices[relation.master]? = some index) :
    relation.masterIndex = index := by
  simp [masterIndex, List.getD, atMaster]

theorem Valid.masterIndex_mem (valid : relation.Valid arity) :
    relation.masterIndex ∈ relation.indices := by
  obtain ⟨index, atMaster, -⟩ := valid.master_allFree
  rw [masterIndex_eq atMaster]
  exact List.mem_of_getElem? atMaster

theorem Valid.masterIndex_allFree (valid : relation.Valid arity) :
    relation.masterIndex.pattern.isAllFree = true := by
  obtain ⟨index, atMaster, allFree⟩ := valid.master_allFree
  rwa [masterIndex_eq atMaster]

theorem Valid.masterIndex_valid (valid : relation.Valid arity) :
    relation.masterIndex.Valid arity :=
  valid.indices_valid _ valid.masterIndex_mem

theorem Valid.contains_iff (valid : relation.Valid arity) {tuple : Tuple}
    (length : tuple.length = arity) :
    relation.masterIndex.contains tuple = true ↔ tuple ∈ relation.masterIndex.tuples := by
  rw [valid.masterIndex_valid.mem_tuples_iff valid.masterIndex_allFree length]
  simp [Index.contains]

/-! ## Adding tuples -/

/-- A relation with tuples added to every index. -/
def extend (relation : Relation) (tuples : List Tuple) : Relation where
  indices := relation.indices.map fun index => (index.insertAll tuples).2
  master := relation.master

theorem masterIndex_extend (valid : relation.Valid arity) (tuples : List Tuple) :
    (relation.extend tuples).masterIndex = (relation.masterIndex.insertAll tuples).2 := by
  obtain ⟨index, atMaster, -⟩ := valid.master_allFree
  rw [masterIndex_eq atMaster]
  exact masterIndex_eq (by simp [extend, atMaster])

theorem Valid.mem_tuples_extend (valid : relation.Valid arity) {tuples : List Tuple}
    (lengths : ∀ tuple ∈ tuples, tuple.length = arity) {tuple : Tuple} :
    tuple ∈ (relation.extend tuples).masterIndex.tuples ↔
      tuple ∈ relation.masterIndex.tuples ∨ tuple ∈ tuples := by
  rw [masterIndex_extend valid]
  have validMaster := valid.masterIndex_valid
  have allFree := valid.masterIndex_allFree
  constructor
  · intro member
    obtain ⟨entry, entryMember, rfl⟩ := List.mem_map.mp member
    rcases Index.mem_entries_insertAll.2 entryMember with old | ⟨tuple, tupleMember, rfl⟩
    · exact .inl (List.mem_map_of_mem old)
    · exact .inr tupleMember
  · rintro (old | new)
    · obtain ⟨entry, entryMember, rfl⟩ := List.mem_map.mp old
      exact List.mem_map_of_mem (Index.mem_entries_insertAll.1 entryMember)
    · have := Index.exists_entry_insertAll relation.masterIndex new
      rw [← Index.pattern_insertAll] at this
      refine ((validMaster.insertAll lengths).mem_tuples_iff ?_ (lengths tuple new)).mpr this
      rwa [Index.pattern_insertAll]

theorem Valid.extend (valid : relation.Valid arity) {tuples : List Tuple}
    (lengths : ∀ tuple ∈ tuples, tuple.length = arity) :
    (relation.extend tuples).Valid arity := by
  refine ⟨?_, fun index member => ?_, fun index member entry entryMember => ?_,
    fun index member tuple tupleMember => ?_⟩
  · obtain ⟨index, atMaster, allFree⟩ := valid.master_allFree
    exact ⟨(index.insertAll tuples).2, by simp [Relation.extend, atMaster],
      by rwa [Index.pattern_insertAll]⟩
  · obtain ⟨old, oldMember, rfl⟩ := List.mem_map.mp member
    exact (valid.indices_valid old oldMember).insertAll lengths
  · obtain ⟨old, oldMember, rfl⟩ := List.mem_map.mp member
    rw [valid.mem_tuples_extend lengths]
    rcases Index.mem_entries_insertAll.2 entryMember with kept | ⟨tuple, tupleMember, rfl⟩
    · exact .inl (valid.sound old oldMember entry kept)
    · exact .inr tupleMember
  · obtain ⟨old, oldMember, rfl⟩ := List.mem_map.mp member
    rw [Index.pattern_insertAll]
    rcases (valid.mem_tuples_extend lengths).mp tupleMember with kept | new
    · obtain ⟨entry, entryMember, keyEq⟩ := valid.complete old oldMember tuple kept
      exact ⟨entry, Index.mem_entries_insertAll.1 entryMember, keyEq⟩
    · exact Index.exists_entry_insertAll old new

/-- Two relations have the same indices, and the later one has all entries of the earlier one. -/
def Grows (later earlier : Relation) : Prop :=
  ∀ number : Nat, Option.Rel Index.Grows later.indices[number]? earlier.indices[number]?

theorem Grows.refl (relation : Relation) : relation.Grows relation := by
  intro number
  cases relation.indices[number]? with
  | none => exact .none
  | some index => exact .some (.refl index)

theorem grows_extend (relation : Relation) (tuples : List Tuple) :
    (relation.extend tuples).Grows relation := by
  intro number
  simp only [extend, List.getElem?_map]
  cases relation.indices[number]? with
  | none => exact .none
  | some index => exact .some (Index.grows_insertAll index tuples)

/-- What adding tuples makes of a relation, and what it answers: the relation holds the tuples
afterwards, and the answer is by how many tuples it grew. -/
structure Added (arity : Nat) (relation later : Relation) (tuples : List Tuple) (count : Nat) :
    Prop where
  valid : later.Valid arity
  grows : later.Grows relation
  mem_tuples : ∀ tuple, tuple ∈ later.masterIndex.tuples ↔
    tuple ∈ relation.masterIndex.tuples ∨ tuple ∈ tuples
  size : later.masterIndex.size = relation.masterIndex.size + count

theorem Valid.added_extend (valid : relation.Valid arity) (tuples : List Tuple)
    (lengths : ∀ tuple ∈ tuples, tuple.length = arity) :
    Added arity relation (relation.extend tuples) tuples
      (relation.masterIndex.insertAll tuples).1 where
  valid := valid.extend lengths
  grows := grows_extend relation tuples
  mem_tuples _ := valid.mem_tuples_extend lengths
  size := by rw [masterIndex_extend valid, Index.size_insertAll]

theorem Valid.added_none (valid : relation.Valid arity) {tuples : List Tuple}
    (known : ∀ tuple ∈ tuples, tuple ∈ relation.masterIndex.tuples) :
    Added arity relation relation tuples 0 where
  valid := valid
  grows := .refl relation
  mem_tuples tuple := ⟨.inl, fun member => member.elim id (known tuple)⟩
  size := rfl

theorem Valid.addAll (valid : relation.Valid arity) {tuples : List Tuple}
    (lengths : ∀ tuple ∈ tuples, tuple.length = arity) :
    Added arity relation (relation.addAll tuples).2 tuples (relation.addAll tuples).1 := by
  unfold Relation.addAll
  split
  · next none =>
      refine valid.added_none fun tuple member => ?_
      exact (valid.masterIndex_valid.mem_tuples_iff valid.masterIndex_allFree
        (lengths tuple member)).mpr (Index.insertAll_eq_zero none tuple member)
  · exact valid.added_extend tuples lengths

theorem Valid.add (valid : relation.Valid arity) {tuple : Tuple} (length : tuple.length = arity) :
    Added arity relation (relation.add tuple).2 [tuple] (if (relation.add tuple).1 then 1 else 0) ∧
      ((relation.add tuple).1 = true ↔ tuple ∉ relation.masterIndex.tuples) := by
  have containsIff := valid.contains_iff length
  unfold Relation.add
  split
  · next present =>
      exact ⟨valid.added_none (by simpa using containsIff.mp present),
        by simpa using containsIff.mp present⟩
  · next absent =>
      have isNew : tuple ∉ relation.masterIndex.tuples := mt containsIff.mpr absent
      refine ⟨?_, by simpa using isNew⟩
      have added := valid.added_extend [tuple] (by simpa using length)
      have count : (relation.masterIndex.insertAll [tuple]).1 = 1 := by
        by_contra other
        have none : (relation.masterIndex.insertAll [tuple]).1 = 0 := by
          simp only [Index.insertAll] at other ⊢
          split at other <;> simp_all
        exact isNew ((valid.masterIndex_valid.mem_tuples_iff valid.masterIndex_allFree length).mpr
          (Index.insertAll_eq_zero none tuple List.mem_cons_self))
      rw [count] at added
      exact added

/-! ## Removing tuples -/

theorem masterIndex_clear (valid : relation.Valid arity) :
    relation.clear.masterIndex = relation.masterIndex.clear := by
  obtain ⟨index, atMaster, -⟩ := valid.master_allFree
  rw [masterIndex_eq atMaster]
  exact masterIndex_eq (by simp [clear, atMaster])

theorem tuples_clear (valid : relation.Valid arity) : relation.clear.masterIndex.tuples = [] := by
  rw [masterIndex_clear valid]
  rfl

theorem Valid.clear (valid : relation.Valid arity) : relation.clear.Valid arity := by
  refine ⟨?_, fun index member => ?_, fun index member entry entryMember => ?_,
    fun index member tuple tupleMember => ?_⟩
  · obtain ⟨index, atMaster, allFree⟩ := valid.master_allFree
    exact ⟨index.clear, by simp [Relation.clear, atMaster], allFree⟩
  · obtain ⟨old, oldMember, rfl⟩ := List.mem_map.mp member
    exact Index.valid_clear (valid.indices_valid old oldMember)
  · obtain ⟨old, -, rfl⟩ := List.mem_map.mp member
    simp [Index.clear] at entryMember
  · simp [tuples_clear valid] at tupleMember

theorem valid_ofPatterns {patterns : List Pattern}
    (lengths : ∀ pattern ∈ patterns, pattern.length = arity) :
    (ofPatterns arity patterns).Valid arity ∧ (ofPatterns arity patterns).masterIndex.tuples = [] := by
  have emptyValid : ∀ pattern ∈ patterns, ({ pattern } : Index).Valid arity :=
    fun pattern member => Index.valid_empty (lengths pattern member)
  unfold ofPatterns
  split
  · next master found =>
      obtain ⟨inside, allFree, -⟩ := List.findIdx?_eq_some_iff_getElem.mp found
      have atMaster : (patterns.map fun pattern => ({ pattern } : Index))[master]? =
          some { pattern := patterns[master] } := by
        simp [inside]
      refine ⟨⟨⟨_, atMaster, allFree⟩, ?_, ?_, ?_⟩, ?_⟩
      · simpa using emptyValid
      · simp
      · simp [masterIndex, List.getD, atMaster, Index.tuples]
      · simp [masterIndex, List.getD, atMaster, Index.tuples]
  · next missing =>
      have atMaster : ((patterns.map fun pattern => ({ pattern } : Index)) ++
          [{ pattern := .allFree arity }])[patterns.length]? =
            some { pattern := .allFree arity } := by
        rw [List.getElem?_append_right (by simp)]
        simp
      refine ⟨⟨⟨_, atMaster, ?_⟩, ?_, ?_, ?_⟩, ?_⟩
      · simp [Pattern.isAllFree, Pattern.allFree]
      · intro index member
        rcases List.mem_append.mp member with member | member
        · obtain ⟨pattern, patternMember, rfl⟩ := List.mem_map.mp member
          exact emptyValid pattern patternMember
        · obtain rfl := List.mem_singleton.mp member
          exact Index.valid_empty (by simp [Pattern.allFree])
      · intro index member entry entryMember
        rcases List.mem_append.mp member with member | member
        · obtain ⟨pattern, -, rfl⟩ := List.mem_map.mp member
          simp at entryMember
        · obtain rfl := List.mem_singleton.mp member
          simp at entryMember
      · simp [masterIndex, List.getD, Index.tuples]
      · simp [masterIndex, List.getD, Index.tuples]

end Relation

end Datalog
